import Velcrux.Wire.Message
import Velcrux.Wire.Proofs.FieldProofs

/-!
# Payloads come back

The decoder reads every message off the payload its encoder wrote, field by field; the encoder's own
checks bound the lengths, and where it has none the size of an allocation does.
-/

namespace Velcrux.Wire

open Decoding Varint List ListResult

variable {bytes : Bytes}

theorem toNat_ofNat_u8 {n : ℕ} (h : ¬ 0xFF < n) : (UInt8.ofNat n).toNat = n :=
  Varint.toNat_ofNat_of_lt (by omega)

theorem toNat_ofNat_u32 {n : ℕ} (h : n < 2 ^ 32) : (UInt32.ofNat n).toNat = n := by
  simpa using Nat.mod_eq_of_lt h

theorem toNat_ofNat_u64 {n : ℕ} (h : n ≤ u64Max) : (UInt64.ofNat n).toNat = n := by
  have hlt : n < 2 ^ 64 := by
    unfold u64Max at h
    omega
  simpa using Nat.mod_eq_of_lt hlt

theorem lt_of_wireChunks {n : ℕ} (h : ¬ maxWireChunks < n) : n < 2 ^ 64 := by
  unfold maxWireChunks at h
  omega

/-! ## Handshake -/

theorem fromWire_toWire {c : Capabilities} (h : c.bits &&& 0xFFF = c.bits) :
    Capabilities.fromWire c.toWire = c := by
  simp [Capabilities.fromWire, Capabilities.toWire, h]

theorem decodes_hello {m : Hello} (hcaps : m.capabilities.bits &&& 0xFFF = m.capabilities.bits)
    (h : m.encode = .ok bytes) : Decodes Hello.decode m bytes := by
  obtain ⟨hagent, h⟩ := checkField_bind_ok h
  obtain ⟨hversions, h⟩ := checkField_bind_ok h
  obtain ⟨rfl, -⟩ := payload_ok h
  have hcount := toNat_ofNat_u8 hversions
  refine .need (by simp) ?_
  refine (decodes_u8 _).bind ?_
  simp only [hcount]
  refine .need (by simp) (.need (by simp) ?_)
  refine (decodes_take rfl).bind ?_
  refine (decodes_u32 _).bind ?_
  refine (decodes_readStr (by omega) _ _ _).bind ?_
  rw [fromWire_toWire hcaps]
  exact decodes_pure _

theorem decodes_helloAck {m : HelloAck}
    (hcaps : m.capabilities.bits &&& 0xFFF = m.capabilities.bits) (h : m.encode = .ok bytes) :
    Decodes HelloAck.decode m bytes := by
  obtain ⟨hagent, h⟩ := checkField_bind_ok h
  obtain ⟨rfl, -⟩ := payload_ok h
  refine .need (by simp +arith) ?_
  refine (decodes_u8 _).bind ?_
  refine (decodes_u32 _).bind ?_
  iterate 3 refine (decodes_u64 _).bind ?_
  refine (decodes_u32 _).bind ?_
  refine (decodes_readStr (by omega) _ _ _).bind ?_
  rw [fromWire_toWire hcaps]
  exact decodes_pure _

theorem decodes_auth {m : Auth}
    (hmech : m.mechanism = authMechanismMtls ∨ m.mechanism = authMechanismSshPubkey)
    (h : m.encode = .ok bytes) : Decodes Auth.decode m bytes := by
  obtain ⟨htoken, h⟩ := checkField_bind_ok h
  obtain ⟨rfl, -⟩ := payload_ok h
  have hlen : (UInt32.ofNat m.token.length).toNat = m.token.length := by
    unfold maxAuthToken at htoken
    exact toNat_ofNat_u32 (by omega)
  have hknown : ¬ (m.mechanism ≠ authMechanismMtls ∧ m.mechanism ≠ authMechanismSshPubkey) := by
    tauto
  refine .need (by simp +arith) ?_
  refine (decodes_u16 _).bind ?_
  refine (decodes_skip (length_u16Field 0)).bind ?_
  refine (decodes_u32 _).bind ?_
  refine (decodes_refuse (by rwa [hlen]) _).bind_nil ?_
  rw [hlen]
  refine .need (by simp) ?_
  refine (decodes_refuse hknown _).bind_nil ?_
  exact (decodes_take rfl).bind (decodes_pure _)

theorem decodes_authOk {m : AuthOk} (h : m.encode = .ok bytes) : Decodes AuthOk.decode m bytes := by
  obtain ⟨hident, h⟩ := checkField_bind_ok h
  obtain ⟨rfl, -⟩ := payload_ok h
  have hlt : (utf8 m.identity).length < 2 ^ 64 := by
    unfold maxIdentityLen at hident
    omega
  have hpos := length_utf8_lt_strField m.identity
  simp only [flatten_cons, strField, append_assoc]
  refine .need (by simp [strField] at hpos ⊢; omega) ?_
  refine (decodes_varint hlt).bind ?_
  refine (decodes_refuse hident _).bind_nil ?_
  refine .checkedAdd (by simp) (.checkedAdd (by simp) (.need (by simp) ?_))
  refine (decodes_readUtf8 _ _).bind ?_
  refine (decodes_u64 _).bind ?_
  exact decodes_pure _

theorem decodes_ping {m : Ping} (h : m.encode = .ok bytes) : Decodes Ping.decode m bytes := by
  obtain ⟨rfl, -⟩ := payload_ok h
  refine .need (by simp) ?_
  iterate 2 refine (decodes_u64 _).bind ?_
  exact decodes_pure _

theorem decodes_sessionInit {m : SessionOptions} (h : m.encode = .ok bytes) :
    Decodes SessionOptions.decode m bytes := by
  obtain ⟨rfl, -⟩ := payload_ok h
  refine .need (by simp) ?_
  refine (decodes_u64 _).bind ?_
  refine (decodes_u16 _).bind ?_
  exact decodes_pure _

theorem decodes_bye {m : Bye} (h : m.encode = .ok bytes) : Decodes Bye.decode m bytes := by
  obtain ⟨rfl, -⟩ := payload_ok h
  refine .need (by simp) ?_
  exact (decodes_u32 _).bind (decodes_pure _)

theorem errorCode_fromWire_toWire (c : ErrorCode) : ErrorCode.fromWire c.toWire = c := by
  cases c <;> rfl

theorem decodes_error {m : ErrorMsg} (h : m.encode = .ok bytes) :
    Decodes ErrorMsg.decode m bytes := by
  obtain ⟨rfl, hsize⟩ := payload_ok h
  -- the encoder does not bound the detail; the allocation does
  have hdetail : (utf8 m.detail).length < 2 ^ 64 := by
    have := length_utf8_lt_strField m.detail
    simp [isizeMax] at hsize
    omega
  refine .need (by simp +arith) ?_
  refine (decodes_u32 _).bind ?_
  refine (decodes_readFlag _ _).bind ?_
  refine (decodes_readStr hdetail _ _ _).bind ?_
  rw [errorCode_fromWire_toWire]
  exact decodes_pure _

/-! ## Transfers -/

theorem opFromWire_opToWire (op : Protocol.TransferOp) : opFromWire (opToWire op) = .ok op := by
  cases op <;> rfl

theorem decodes_transferCreate {m : TransferCreate} (h : m.encode = .ok bytes) :
    Decodes TransferCreate.decode m bytes := by
  obtain ⟨hfields, h⟩ := checkField_bind_ok h
  obtain ⟨rfl, -⟩ := payload_ok h
  simp only [maxMessageSize] at hfields
  refine .need ?_ ?_
  · simp
    omega
  refine (decodes_u8 _).bind ?_
  refine (decodes_result (opFromWire_opToWire m.op)).bind_nil ?_
  refine (decodes_skip (length_zeros 7)).bind ?_
  iterate 2 refine (decodes_readStr (by omega) _ _ _).bind ?_
  refine decodes_readStrBefore_bind (by omega) (by simp) ?_
  refine (decodes_u64 _).bind ?_
  refine (decodes_readHash _ _).bind ?_
  exact decodes_pure _

theorem decodes_transferCreated {m : TransferCreated} (h : m.encode = .ok bytes) :
    Decodes TransferCreated.decode m bytes := by
  obtain ⟨rfl, -⟩ := payload_ok h
  refine .need (by simp) ?_
  refine (decodes_readTransferId _ _).bind ?_
  refine (decodes_readFlag _ _).bind ?_
  refine (decodes_skip (length_zeros 7)).bind ?_
  refine (decodes_u64 _).bind ?_
  exact decodes_pure _

theorem decodes_transferPlan {m : TransferPlan} (h : m.encode = .ok bytes) :
    Decodes TransferPlan.decode m bytes := by
  obtain ⟨rfl, -⟩ := payload_ok h
  refine .need (by simp) ?_
  refine (decodes_readTransferId _ _).bind ?_
  iterate 3 refine (decodes_u64 _).bind ?_
  exact decodes_pure _

/-- The number of streams is the rest of the payload, so the message must fill it. -/
theorem decodesAll_transferBegin {m : TransferBegin} (hstreams : 1 ≤ m.streams)
    (h : m.encode = .ok bytes) : DecodesAll TransferBegin.decode m bytes := by
  obtain ⟨rfl, -⟩ := payload_ok h
  refine .need (by simp) ?_
  refine (decodes_readTransferId _ _).bindAll ?_
  rw [flatten_cons, flatten_nil, append_nil]
  refine decodesAll_takeRest_bind ?_
  split_ifs with hmany
  · have hmax : max m.streams 1 = m.streams := if_neg (UInt8.not_le.2 hmany)
    simp only [hmax]
    exact decodes_pure _
  · have hone : m.streams = 1 := UInt8.le_antisymm (UInt8.not_lt.1 hmany) hstreams
    simp only [← hone]
    exact decodes_pure _

theorem decodes_verify {m : Verify} (h : m.encode = .ok bytes) : Decodes Verify.decode m bytes := by
  obtain ⟨rfl, -⟩ := payload_ok h
  refine .need (by simp) ?_
  refine (decodes_readTransferId _ _).bind ?_
  refine (decodes_readHash _ _).bind ?_
  exact decodes_pure _

theorem decodes_verifyResult {m : VerifyResult} (h : m.encode = .ok bytes) :
    Decodes VerifyResult.decode m bytes := by
  obtain ⟨rfl, -⟩ := payload_ok h
  refine .need (by simp) ?_
  refine (decodes_readTransferId _ _).bind ?_
  refine (decodes_readFlag _ _).bind ?_
  refine (decodes_skip (length_zeros 7)).bind ?_
  refine (decodes_readHash _ _).bind ?_
  exact decodes_pure _

theorem decodes_commit {m : Commit} (h : m.encode = .ok bytes) : Decodes Commit.decode m bytes := by
  obtain ⟨rfl, -⟩ := payload_ok h
  refine .need (by simp) ?_
  exact (decodes_readTransferId _ _).bind (decodes_pure _)

theorem decodes_committed {m : Committed} (h : m.encode = .ok bytes) :
    Decodes Committed.decode m bytes := by
  obtain ⟨rfl, -⟩ := payload_ok h
  refine .need (by simp) ?_
  refine (decodes_readTransferId _ _).bind ?_
  exact (decodes_u32 _).bind (decodes_pure _)

theorem decodes_checkpoint {m : Checkpoint} (hmono : m.completedChunks.Pairwise (· < ·))
    (h : m.encode = .ok bytes) : Decodes Checkpoint.decode m bytes := by
  obtain ⟨hcount, h⟩ := checkField_bind_ok h
  obtain ⟨rfl, -⟩ := payload_ok h
  have hlt := lt_of_wireChunks hcount
  refine .need (by simp +arith) ?_
  refine (decodes_readTransferId _ _).bind ?_
  iterate 3 refine (decodes_u64 _).bind ?_
  refine (decodes_varint hlt).bind ?_
  refine (decodes_refuse hcount _).bind_nil ?_
  refine (decodes_readIndices hmono (by simp) _ _).bind ?_
  exact decodes_pure _

theorem decodes_resume {m : Resume} (h : m.encode = .ok bytes) : Decodes Resume.decode m bytes := by
  obtain ⟨hkey, h⟩ := checkField_bind_ok h
  obtain ⟨rfl, -⟩ := payload_ok h
  refine .need (by simp) ?_
  refine (decodes_readTransferId _ _).bind ?_
  exact (decodes_readStr (by omega) _ _ _).bind (decodes_pure _)

theorem decodes_resumeState {m : ResumeState} (hmono : m.completedChunks.Pairwise (· < ·))
    (h : m.encode = .ok bytes) : Decodes ResumeState.decode m bytes := by
  obtain ⟨hcount, h⟩ := checkField_bind_ok h
  obtain ⟨hpath, h⟩ := checkField_bind_ok h
  obtain ⟨rfl, -⟩ := payload_ok h
  have hlt := lt_of_wireChunks hcount
  refine .need (by simp) ?_
  refine (decodes_readTransferId _ _).bind ?_
  refine decodes_readStrBefore_bind (by omega) (by simp +arith) ?_
  iterate 3 refine (decodes_u64 _).bind ?_
  refine (decodes_readHash _ _).bind ?_
  refine (decodes_varint hlt).bind ?_
  refine (decodes_refuse hcount _).bind_nil ?_
  refine (decodes_readIndices hmono (by simp) _ _).bind ?_
  exact decodes_pure _

theorem decodes_cancel {m : Cancel} (h : m.encode = .ok bytes) : Decodes Cancel.decode m bytes := by
  obtain ⟨rfl, -⟩ := payload_ok h
  refine .need (by simp) ?_
  refine (decodes_readTransferId _ _).bind ?_
  exact (decodes_u32 _).bind (decodes_pure _)

theorem decodes_stat {m : StatQuery} (h : m.encode = .ok bytes) :
    Decodes StatQuery.decode m bytes := by
  obtain ⟨rfl, -⟩ := payload_ok h
  refine .need (by simp) ?_
  exact (decodes_readTransferId _ _).bind (decodes_pure _)

theorem decodes_statResult {m : StatResult} (h : m.encode = .ok bytes) :
    Decodes StatResult.decode m bytes := by
  obtain ⟨hstatus, h⟩ := checkField_bind_ok h
  obtain ⟨hdirection, h⟩ := checkField_bind_ok h
  obtain ⟨hpath, h⟩ := checkField_bind_ok h
  obtain ⟨rfl, -⟩ := payload_ok h
  refine .need (by simp +arith) ?_
  refine (decodes_readTransferId _ _).bind ?_
  refine (decodes_readFlag _ _).bind ?_
  refine (decodes_skip (length_zeros 1)).bind ?_
  iterate 3 refine (decodes_readStr (by omega) _ _ _).bind ?_
  refine .need (by simp) ?_
  iterate 5 refine (decodes_u64 _).bind ?_
  exact decodes_pure _

theorem decodes_list {m : ListQuery} (h : m.encode = .ok bytes) :
    Decodes ListQuery.decode m bytes := by
  obtain ⟨hpath, h⟩ := checkField_bind_ok h
  obtain ⟨rfl, -⟩ := payload_ok h
  exact (decodes_readStr (by omega) _ _ _).bind (decodes_pure _)

theorem entriesFields_cons_ok {e : StatResult} {entries : List StatResult} {fields : List Bytes}
    (h : entriesFields (e :: entries) = .ok fields) :
    ∃ body, e.encode = .ok body ∧ ∃ later, entriesFields entries = .ok later ∧
      fields = (encodeVarint body.length ++ body) :: later := by
  obtain ⟨body, hbody, h⟩ := except_bind_ok h
  obtain ⟨later, hlater, h⟩ := except_bind_ok h
  cases h
  exact ⟨body, hbody, later, hlater, rfl⟩

theorem decodes_readEntry {e : StatResult} {body : Bytes} (h : e.encode = .ok body)
    (hlen : body.length < 2 ^ 64) : Decodes readEntry e (encodeVarint body.length ++ body) := by
  have hbody : StatResult.decode.run body = .ok e := by
    have hrun := (decodes_statResult h).run hlen []
    rwa [append_nil] at hrun
  have hpos := varintLen_pos body.length
  refine .need (by simp; omega) ?_
  refine (decodes_varint hlen).bind ?_
  refine .checkedAdd le_rfl (.need le_rfl ?_)
  exact (decodes_take rfl).bind_last (decodes_result hbody)

theorem decodes_entries {entries : List StatResult} {fields : List Bytes}
    (h : entriesFields entries = .ok fields) (hlen : fields.flatten.length < 2 ^ 64) :
    Decodes (many readEntry entries.length) entries fields.flatten := by
  induction entries generalizing fields with
  | nil =>
    cases h
    exact decodes_pure []
  | cons e entries ih =>
    obtain ⟨body, hbody, later, hlater, rfl⟩ := entriesFields_cons_ok h
    rw [flatten_cons, length_append] at hlen
    have hentry := decodes_readEntry hbody (by rw [length_append] at hlen; omega)
    exact hentry.bind ((ih hlater (by omega)).bind_last (decodes_pure _))

theorem decodes_listResult {m : ListResult} (h : m.encode = .ok bytes) :
    Decodes decode m bytes := by
  obtain ⟨hcount, h⟩ := checkField_bind_ok h
  obtain ⟨fields, hfields, h⟩ := except_bind_ok h
  obtain ⟨rfl, hsize⟩ := payload_ok h
  have hlt := lt_of_wireChunks hcount
  have hlen : fields.flatten.length < 2 ^ 64 := by
    rw [flatten_cons, length_append, isizeMax] at hsize
    omega
  refine (decodes_varint hlt).bind ?_
  refine (decodes_refuse hcount _).bind_nil ?_
  exact (decodes_entries hfields hlen).bind_last (decodes_pure _)

/-! ## Manifests and inventories -/

theorem chunkParams_new_self (p : Chunking.ChunkParams) :
    Chunking.ChunkParams.new p.min p.target p.max = some p :=
  dif_pos ⟨p.max_le, p.accepted⟩

theorem decodes_manifestBegin {m : ManifestBegin}
    (hcount : m.fileCount.toNat ≤ maxManifestEntries) (htotal : m.totalBytes.toNat ≤ maxManifestBytes)
    (h : m.encode = .ok bytes) : Decodes ManifestBegin.decode m bytes := by
  obtain ⟨rfl, -⟩ := payload_ok h
  have hmax := m.chunkerParams.max_le
  have haccepted := m.chunkerParams.accepted
  have hmin : m.chunkerParams.min ≤ u64Max := by omega
  have htarget : m.chunkerParams.target ≤ u64Max := by omega
  refine .need (by simp) ?_
  refine (decodes_u64 _).bind ?_
  refine (decodes_refuse (by omega) _).bind_nil ?_
  refine (decodes_u64 _).bind ?_
  refine (decodes_refuse (by omega) _).bind_nil ?_
  iterate 3 refine (decodes_u64 _).bind ?_
  rw [toNat_ofNat_u64 hmin, toNat_ofNat_u64 htarget, toNat_ofNat_u64 hmax]
  refine (decodes_ofOption (chunkParams_new_self m.chunkerParams) _).bind_nil ?_
  refine (decodes_readHash _ _).bind ?_
  exact decodes_pure _

theorem decodesAll_manifestBatch {m : ManifestBatch}
    (hcount : m.entryCount.toNat ≤ manifestBatchSize) (h : m.encode = .ok bytes) :
    DecodesAll ManifestBatch.decode m bytes := by
  obtain ⟨rfl, -⟩ := payload_ok h
  refine .need (by simp +arith) ?_
  refine (decodes_u64 _).bindAll ?_
  refine (decodes_u32 _).bindAll ?_
  refine (decodes_refuse (by omega) _).bind_nil_all ?_
  rw [flatten_cons, flatten_nil, append_nil]
  exact decodesAll_takeRest_bind (decodes_pure _)

theorem decodesAll_manifestEnd {m : ManifestEnd} (h : m.encode = .ok bytes) :
    DecodesAll ManifestEnd.decode m bytes := by
  obtain ⟨rfl, -⟩ := payload_ok h
  rw [flatten_cons, flatten_nil, append_nil]
  refine decodesAll_takeRest_bind ?_
  refine (decodes_refuse (by simp) _).bind_nil ?_
  exact (decodes_ofOption (Hash.fromBytes_bytes m.manifestHash) _).bind_nil (decodes_pure _)

theorem decodesAll_inventoryHint {m : InventoryHint} (h : m.encode = .ok bytes) :
    DecodesAll InventoryHint.decode m bytes := by
  obtain ⟨rfl, -⟩ := payload_ok h
  refine .need (by simp +arith) ?_
  refine (decodes_readTransferId _ _).bindAll ?_
  refine (decodes_u32 _).bindAll ?_
  refine (decodes_u8 _).bindAll ?_
  rw [flatten_cons, flatten_nil, append_nil]
  exact decodesAll_takeRest_bind (decodes_pure _)

theorem decodesAll_chunkResponse {m : ChunkResponse} (h : m.encode = .ok bytes) :
    DecodesAll ChunkResponse.decode m bytes := by
  obtain ⟨rfl, -⟩ := payload_ok h
  refine .need (by simp +arith) ?_
  refine (decodes_readTransferId _ _).bindAll ?_
  refine (decodes_u64 _).bindAll ?_
  refine (decodes_u32 _).bindAll ?_
  refine (decodes_u32 _).bindAll ?_
  rw [flatten_cons, flatten_nil, append_nil]
  exact decodesAll_takeRest_bind (decodes_pure _)

theorem decodes_chunkQuery {m : ChunkQuery} (hcount : m.chunkHashes.length ≤ maxManifestEntries)
    (h : m.encode = .ok bytes) : Decodes ChunkQuery.decode m bytes := by
  obtain ⟨rfl, -⟩ := payload_ok h
  have hsmall : m.chunkHashes.length ≤ 50000000 := hcount
  have hall : m.chunkHashes.length * 32 ≤ [m.chunkHashes.flatMap Hash.bytes].flatten.length := by
    simp
  refine .need (by simp +arith) ?_
  refine (decodes_readTransferId _ _).bind ?_
  refine (decodes_u64 _).bind ?_
  refine (decodes_varint (by omega)).bind ?_
  refine (decodes_refuse (by omega) _).bind_nil ?_
  refine (decodes_refuse (by omega) _).bind_nil ?_
  refine .checkedAdd hall (.need hall ?_)
  exact (decodes_many fun x _ => decodes_readHash x _).bind (decodes_pure _)

/-- The encoder writes any number of hashes, the decoder refuses more than the manifest limit. -/
theorem fails_chunkQuery {m : ChunkQuery} (hcount : maxManifestEntries < m.chunkHashes.length)
    (h : m.encode = .ok bytes) :
    Fails ChunkQuery.decode (.malformed "CHUNK_QUERY: too many hashes") bytes := by
  obtain ⟨rfl, hsize⟩ := payload_ok h
  have hlt : m.chunkHashes.length < 2 ^ 64 := by
    simp [isizeMax] at hsize
    omega
  refine .need (by simp +arith) ?_
  refine (decodes_readTransferId _ _).bind_fails ?_
  refine (decodes_u64 _).bind_fails ?_
  refine (decodes_varint hlt).bind_fails ?_
  exact fails_refuse hcount _ _ _

end Velcrux.Wire
