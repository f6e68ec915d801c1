import Velcrux.Wire.Proofs.PayloadProofs

/-!
# Messages come back

The type byte selects the decoder of the message's own payload. Only CHUNK_QUERY does not always
come back: its encoder has no limit on the number of hashes.
-/

namespace Velcrux.Wire

open Decoding Message

namespace Message

variable {m : Message} {bytes : Bytes} {t : UInt8}

theorem encode_ok (h : m.encode = .ok (t, bytes)) :
    t = m.typeByte ∧ m.encodePayload = .ok bytes := by
  obtain ⟨b, hb, h⟩ := except_bind_ok h
  cases h
  exact ⟨rfl, hb⟩

theorem allocates_encodePayload (m : Message) : Allocates m.encodePayload := by
  cases m with
  | listResult m =>
    refine Allocates.check fun b h => ?_
    obtain ⟨fields, -, h⟩ := except_bind_ok h
    exact allocates_payload _ b h
  | hello m => exact (allocates_payload _).check.check
  | resumeState m => exact (allocates_payload _).check.check
  | statResult m => exact (allocates_payload _).check.check.check
  | helloAck m => exact (allocates_payload _).check
  | auth m => exact (allocates_payload _).check
  | authOk m => exact (allocates_payload _).check
  | transferCreate m => exact (allocates_payload _).check
  | checkpoint m => exact (allocates_payload _).check
  | resume m => exact (allocates_payload _).check
  | list m => exact (allocates_payload _).check
  | _ =>
    simp only [encodePayload, Ping.encode, SessionOptions.encode, Bye.encode]
    exact allocates_payload _

theorem decodes_decoder (hpong : ∀ p, m ≠ .pong p) (hdoc : m.Documented) (hfill : ¬ m.FillsPayload)
    (hquery : ∀ q, m = .chunkQuery q → q.chunkHashes.length ≤ maxManifestEntries)
    (h : m.encodePayload = .ok bytes) : Decodes (decoder m.typeByte) m bytes := by
  cases m with
  | hello m => exact (decodes_hello hdoc h).map _
  | helloAck m => exact (decodes_helloAck hdoc h).map _
  | auth m => exact (decodes_auth hdoc h).map _
  | authOk m => exact (decodes_authOk h).map _
  | ping m => exact (decodes_ping h).map _
  | pong m => exact absurd rfl (hpong m)
  | sessionInit m => exact (decodes_sessionInit h).map _
  | bye m => exact (decodes_bye h).map _
  | error m => exact (decodes_error h).map _
  | transferCreate m => exact (decodes_transferCreate h).map _
  | transferCreated m => exact (decodes_transferCreated h).map _
  | transferPlan m => exact (decodes_transferPlan h).map _
  | transferBegin m => exact absurd trivial hfill
  | verify m => exact (decodes_verify h).map _
  | verifyResult m => exact (decodes_verifyResult h).map _
  | commit m => exact (decodes_commit h).map _
  | committed m => exact (decodes_committed h).map _
  | checkpoint m => exact (decodes_checkpoint hdoc h).map _
  | resume m => exact (decodes_resume h).map _
  | resumeState m => exact (decodes_resumeState hdoc h).map _
  | cancel m => exact (decodes_cancel h).map _
  | stat m => exact (decodes_stat h).map _
  | statResult m => exact (decodes_statResult h).map _
  | list m => exact (decodes_list h).map _
  | listResult m => exact (decodes_listResult h).map _
  | manifestBegin m => exact (decodes_manifestBegin hdoc.1 hdoc.2 h).map _
  | manifestBatch m => exact absurd trivial hfill
  | manifestEnd m => exact absurd trivial hfill
  | inventoryHint m => exact absurd trivial hfill
  | chunkQuery m => exact (decodes_chunkQuery (hquery m rfl) h).map _
  | chunkResponse m => exact absurd trivial hfill

theorem decodesAll_decoder (hdoc : m.Documented) (hfill : m.FillsPayload)
    (h : m.encodePayload = .ok bytes) : DecodesAll (decoder m.typeByte) m bytes := by
  cases m with
  | transferBegin m => exact (decodesAll_transferBegin hdoc h).map _
  | manifestBatch m => exact (decodesAll_manifestBatch hdoc h).map _
  | manifestEnd m => exact (decodesAll_manifestEnd h).map _
  | inventoryHint m => exact (decodesAll_inventoryHint h).map _
  | chunkResponse m => exact (decodesAll_chunkResponse h).map _
  | _ => exact hfill.elim

/-- A message comes back from its encoding, but for a CHUNK_QUERY with more hashes than a manifest
may have entries. -/
theorem comesBack_iff (m : Message) (hpong : ∀ p, m ≠ .pong p) (hdoc : m.Documented)
    (t : UInt8) (bytes : Bytes) (h : m.encode = .ok (t, bytes)) :
    m.ComesBack t bytes ↔ ∀ q, m = .chunkQuery q → q.chunkHashes.length ≤ maxManifestEntries := by
  obtain ⟨rfl, hpayload⟩ := encode_ok h
  have hlen : bytes.length < 2 ^ 64 := by
    have := allocates_encodePayload m bytes hpayload
    unfold isizeMax at this
    omega
  constructor
  · rintro ⟨-, hback⟩ q rfl
    by_contra hcount
    have hfail := ((fails_chunkQuery (not_le.1 hcount) hpayload).map chunkQuery).run hlen []
    have hok := hback id []
    rw [decode, show decoder (typeByte (.chunkQuery q)) = .chunkQuery <$> ChunkQuery.decode from rfl,
      hfail] at hok
    cases hok
  · intro hquery
    refine ⟨fun hfill => ?_, fun hfill junk => ?_⟩
    · exact (decodesAll_decoder hdoc hfill hpayload).run hlen
    · exact (decodes_decoder hpong hdoc hfill hquery hpayload).run hlen junk

def cliHello : Message := hello ⟨[1], ⟨0x21⟩, "cli"⟩

theorem comesBack_cliHello : cliHello.Documented ∧
    cliHello.ComesBack 0x01 [1, 1, 33, 0, 0, 0, 3, 99, 108, 105] := by
  have hdoc : cliHello.Documented := by
    simp only [cliHello, Documented]
    decide
  exact ⟨hdoc, (comesBack_iff cliHello (fun _ => Message.noConfusion) hdoc 0x01 _ (by decide)).2
    fun _ => Message.noConfusion⟩

theorem length_hashes (hashes : List Hash) :
    (hashes.flatMap Hash.bytes).length = hashes.length * 32 := by
  simp

theorem chunkQuery_encode {q : ChunkQuery} (hcount : q.chunkHashes.length ≤ 2 ^ 48) :
    ∃ bytes, q.encode = .ok bytes := by
  have hvarint := Varint.varintLen_le q.chunkHashes.length
  refine ⟨_, payload_of_le ?_⟩
  simp only [List.flatten_cons, List.flatten_nil, List.length_append, List.length_nil,
    length_idField, length_u64Field, length_hashes, Varint.length_encodeVarint, isizeMax]
  omega

def longQuery : ChunkQuery :=
  ⟨.zero, 0, List.replicate (maxManifestEntries + 1) .zero⟩

theorem length_longQuery : longQuery.chunkHashes.length = maxManifestEntries + 1 :=
  List.length_replicate

/-- A query that is encoded and not accepted. -/
theorem not_comesBack_longQuery : (chunkQuery longQuery).Documented ∧
    ∃ bytes, (chunkQuery longQuery).encode = .ok (0x34, bytes) ∧
      decode 0x34 bytes = .error (.malformed "CHUNK_QUERY: too many hashes") := by
  have hcount : maxManifestEntries < longQuery.chunkHashes.length := by
    rw [length_longQuery]
    exact Nat.lt_succ_self _
  have hfits : longQuery.chunkHashes.length ≤ 2 ^ 48 := by
    rw [length_longQuery]
    decide
  obtain ⟨bytes, hbytes⟩ := chunkQuery_encode hfits
  have hlen : bytes.length < 2 ^ 64 := by
    have := allocates_encodePayload (.chunkQuery longQuery) bytes hbytes
    unfold isizeMax at this
    omega
  have hfail := ((fails_chunkQuery hcount hbytes).map chunkQuery).run hlen []
  rw [List.append_nil] at hfail
  refine ⟨trivial, bytes, ?_, hfail⟩
  simp only [encode, encodePayload, hbytes]
  rfl

end Message

end Velcrux.Wire
