import Velcrux.Wire.Handshake
import Velcrux.Wire.Transfer
import Velcrux.Wire.Manifest

/-!
# The message catalog

`Message::encode` and `Message::decode`, and what a round trip of a message over the wire means.
-/

namespace Velcrux.Wire

open Decoding

inductive Message where
  | hello (m : Hello)
  | helloAck (m : HelloAck)
  | auth (m : Auth)
  | authOk (m : AuthOk)
  | ping (m : Ping)
  | pong (m : Ping)
  | sessionInit (m : SessionOptions)
  | bye (m : Bye)
  | error (m : ErrorMsg)
  | transferCreate (m : TransferCreate)
  | transferCreated (m : TransferCreated)
  | transferPlan (m : TransferPlan)
  | transferBegin (m : TransferBegin)
  | verify (m : Verify)
  | verifyResult (m : VerifyResult)
  | commit (m : Commit)
  | committed (m : Committed)
  | checkpoint (m : Checkpoint)
  | resume (m : Resume)
  | resumeState (m : ResumeState)
  | cancel (m : Cancel)
  | stat (m : StatQuery)
  | statResult (m : StatResult)
  | list (m : ListQuery)
  | listResult (m : ListResult)
  | manifestBegin (m : ManifestBegin)
  | manifestBatch (m : ManifestBatch)
  | manifestEnd (m : ManifestEnd)
  | inventoryHint (m : InventoryHint)
  | chunkQuery (m : ChunkQuery)
  | chunkResponse (m : ChunkResponse)
deriving DecidableEq

namespace Message

def typeByte : Message → UInt8
  | .hello _ => 0x01
  | .helloAck _ => 0x02
  | .auth _ => 0x03
  | .authOk _ => 0x04
  | .sessionInit _ => 0x05
  | .ping _ => 0x06
  | .pong _ => 0x06
  | .bye _ => 0x07
  | .error _ => 0x7F
  | .transferCreate _ => 0x10
  | .transferCreated _ => 0x11
  | .transferPlan _ => 0x12
  | .transferBegin _ => 0x13
  | .checkpoint _ => 0x14
  | .verify _ => 0x15
  | .verifyResult _ => 0x16
  | .commit _ => 0x17
  | .committed _ => 0x18
  | .resume _ => 0x19
  | .resumeState _ => 0x1A
  | .cancel _ => 0x1B
  | .stat _ => 0x1C
  | .statResult _ => 0x1D
  | .list _ => 0x1E
  | .listResult _ => 0x1F
  | .manifestBegin _ => 0x30
  | .manifestBatch _ => 0x31
  | .manifestEnd _ => 0x32
  | .inventoryHint _ => 0x33
  | .chunkQuery _ => 0x34
  | .chunkResponse _ => 0x35

def encodePayload : Message → Except Failure Bytes
  | .hello m => m.encode
  | .helloAck m => m.encode
  | .auth m => m.encode
  | .authOk m => m.encode
  | .ping m => m.encode
  | .pong m => m.encode
  | .sessionInit m => m.encode
  | .bye m => m.encode
  | .error m => m.encode
  | .transferCreate m => m.encode
  | .transferCreated m => m.encode
  | .transferPlan m => m.encode
  | .transferBegin m => m.encode
  | .verify m => m.encode
  | .verifyResult m => m.encode
  | .commit m => m.encode
  | .committed m => m.encode
  | .checkpoint m => m.encode
  | .resume m => m.encode
  | .resumeState m => m.encode
  | .cancel m => m.encode
  | .stat m => m.encode
  | .statResult m => m.encode
  | .list m => m.encode
  | .listResult m => m.encode
  | .manifestBegin m => m.encode
  | .manifestBatch m => m.encode
  | .manifestEnd m => m.encode
  | .inventoryHint m => m.encode
  | .chunkQuery m => m.encode
  | .chunkResponse m => m.encode

def encode (m : Message) : Except Failure (UInt8 × Bytes) := do
  let bytes ← m.encodePayload
  return (m.typeByte, bytes)

def decoder (typeByte : UInt8) : PayloadDecoder Message :=
  match typeByte.toNat with
  | 0x01 => .hello <$> Hello.decode
  | 0x02 => .helloAck <$> HelloAck.decode
  | 0x03 => .auth <$> Auth.decode
  | 0x04 => .authOk <$> AuthOk.decode
  | 0x05 => .sessionInit <$> SessionOptions.decode
  | 0x06 => .ping <$> Ping.decode
  | 0x07 => .bye <$> Bye.decode
  | 0x7F => .error <$> ErrorMsg.decode
  | 0x10 => .transferCreate <$> TransferCreate.decode
  | 0x11 => .transferCreated <$> TransferCreated.decode
  | 0x12 => .transferPlan <$> TransferPlan.decode
  | 0x13 => .transferBegin <$> TransferBegin.decode
  | 0x14 => .checkpoint <$> Checkpoint.decode
  | 0x15 => .verify <$> Verify.decode
  | 0x16 => .verifyResult <$> VerifyResult.decode
  | 0x17 => .commit <$> Commit.decode
  | 0x18 => .committed <$> Committed.decode
  | 0x19 => .resume <$> Resume.decode
  | 0x1A => .resumeState <$> ResumeState.decode
  | 0x1B => .cancel <$> Cancel.decode
  | 0x1C => .stat <$> StatQuery.decode
  | 0x1D => .statResult <$> StatResult.decode
  | 0x1E => .list <$> ListQuery.decode
  | 0x1F => .listResult <$> ListResult.decode
  | 0x30 => .manifestBegin <$> ManifestBegin.decode
  | 0x31 => .manifestBatch <$> ManifestBatch.decode
  | 0x32 => .manifestEnd <$> ManifestEnd.decode
  | 0x33 => .inventoryHint <$> InventoryHint.decode
  | 0x34 => .chunkQuery <$> ChunkQuery.decode
  | 0x35 => .chunkResponse <$> ChunkResponse.decode
  | _ => throw (.unsupportedMessage typeByte)

def decode (typeByte : UInt8) (bytes : Bytes) : Except ProtocolError Message :=
  (decoder typeByte).run bytes

def Documented : Message → Prop
  | .hello m => m.capabilities.bits &&& 0xFFF = m.capabilities.bits
  | .helloAck m => m.capabilities.bits &&& 0xFFF = m.capabilities.bits
  | .auth m => m.mechanism = authMechanismMtls ∨ m.mechanism = authMechanismSshPubkey
  | .transferBegin m => 1 ≤ m.streams
  | .checkpoint m => m.completedChunks.Pairwise (· < ·)
  | .resumeState m => m.completedChunks.Pairwise (· < ·)
  | .manifestBegin m =>
    m.fileCount.toNat ≤ maxManifestEntries ∧ m.totalBytes.toNat ≤ maxManifestBytes
  | .manifestBatch m => m.entryCount.toNat ≤ manifestBatchSize
  | _ => True

def FillsPayload : Message → Prop
  | .manifestEnd _ => True
  | .manifestBatch _ => True
  | .inventoryHint _ => True
  | .chunkResponse _ => True
  | .transferBegin _ => True
  | _ => False

def ComesBack (m : Message) (typeByte : UInt8) (bytes : Bytes) : Prop :=
  (m.FillsPayload → decode typeByte bytes = .ok m) ∧
    (¬ m.FillsPayload → ∀ junk, decode typeByte (bytes ++ junk) = .ok m)

end Message

end Velcrux.Wire
