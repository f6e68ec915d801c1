import Velcrux.Protocol.Message
import Velcrux.Wire.Basic

/-!
# Transfer messages

TRANSFER_CREATE to COMMITTED, CHECKPOINT, RESUME, RESUME_STATE, CANCEL, STAT, STAT_RESULT, LIST and
LIST_RESULT (`protocol/message`).
-/

namespace Velcrux.Wire

open Decoding Varint
open Protocol (TransferOp)

def maxMessageSize : ℕ := 1024 * 1024

def maxWireChunks : ℕ := 1000000

def opToWire : TransferOp → UInt8
  | .upload => 1
  | .download => 2
  | .syncUpload => 3
  | .syncDownload => 4
  | .delete => 5
  | .symlink => 6
  | .hardlink => 7
  | .setXattr => 8
  | .syncDelete => 9

def opFromWire (b : UInt8) : Except ProtocolError TransferOp :=
  match b.toNat with
  | 1 => .ok .upload
  | 2 => .ok .download
  | 3 => .ok .syncUpload
  | 4 => .ok .syncDownload
  | 5 => .ok .delete
  | 6 => .ok .symlink
  | 7 => .ok .hardlink
  | 8 => .ok .setXattr
  | 9 => .ok .syncDelete
  | _ => .error (.malformed "TRANSFER_CREATE: unknown op")

structure TransferCreate where
  op : TransferOp
  srcPath : String
  dstPath : String
  idempotencyKey : String
  fileSize : UInt64
  fileHash : Hash
deriving DecidableEq

namespace TransferCreate

def request (m : TransferCreate) : Protocol.TransferCreate :=
  ⟨m.op, m.srcPath, m.dstPath, m.idempotencyKey, m.fileSize.toNat, m.fileHash⟩

def encode (m : TransferCreate) : Except Failure Bytes := do
  checkField (maxMessageSize < (utf8 m.srcPath).length ∨ 0xFFFF < (utf8 m.dstPath).length ∨
    0xFFFF < (utf8 m.idempotencyKey).length) "TRANSFER_CREATE: field too long"
  payload [[opToWire m.op], zeros 7, strField m.srcPath, strField m.dstPath,
    strField m.idempotencyKey, u64Field m.fileSize, m.fileHash.bytes]

def decode : PayloadDecoder TransferCreate := do
  need (8 + 8 + 32) (.malformed "TRANSFER_CREATE: truncated")
  let b ← u8
  let op ← result (opFromWire b)
  skip 7
  let srcPath ← readStr "TRANSFER_CREATE: src_path_len overflow"
    "TRANSFER_CREATE: truncated src_path" "TRANSFER_CREATE: src_path not UTF-8"
  let dstPath ← readStr "TRANSFER_CREATE: dst_path_len overflow"
    "TRANSFER_CREATE: truncated dst_path" "TRANSFER_CREATE: dst_path not UTF-8"
  let idempotencyKey ← readStrBefore (8 + 32) "TRANSFER_CREATE: idempotency_len overflow"
    "TRANSFER_CREATE: tail overflow" "TRANSFER_CREATE: truncated tail"
    "TRANSFER_CREATE: idempotency not UTF-8"
  let fileSize ← u64
  let fileHash ← readHash "TRANSFER_CREATE: bad hash"
  return ⟨op, srcPath, dstPath, idempotencyKey, fileSize, fileHash⟩

end TransferCreate

structure TransferCreated where
  transferId : TransferId
  resumed : Bool
  maxChunkSize : UInt64
deriving DecidableEq

namespace TransferCreated

def encode (m : TransferCreated) : Except Failure Bytes :=
  payload [m.transferId.bytes, flagField m.resumed, zeros 7, u64Field m.maxChunkSize]

def decode : PayloadDecoder TransferCreated := do
  need (16 + 1 + 7 + 8) (.malformed "TRANSFER_CREATED: truncated")
  let transferId ← readTransferId "TRANSFER_CREATED: bad transfer_id"
  let resumed ← readFlag "TRANSFER_CREATED: bad resumed"
  skip 7
  let maxChunkSize ← u64
  return ⟨transferId, resumed, maxChunkSize⟩

end TransferCreated

structure TransferPlan where
  transferId : TransferId
  bytesTotal : UInt64
  bytesToTransfer : UInt64
  bytesReusable : UInt64
deriving DecidableEq

namespace TransferPlan

def encode (m : TransferPlan) : Except Failure Bytes :=
  payload [m.transferId.bytes, u64Field m.bytesTotal, u64Field m.bytesToTransfer,
    u64Field m.bytesReusable]

def decode : PayloadDecoder TransferPlan := do
  need (16 + 8 * 3) (.malformed "TRANSFER_PLAN: truncated")
  let transferId ← readTransferId "TRANSFER_PLAN: bad transfer_id"
  let bytesTotal ← u64
  let bytesToTransfer ← u64
  let bytesReusable ← u64
  return ⟨transferId, bytesTotal, bytesToTransfer, bytesReusable⟩

end TransferPlan

structure TransferBegin where
  transferId : TransferId
  streams : UInt8
deriving DecidableEq

namespace TransferBegin

def encode (m : TransferBegin) : Except Failure Bytes :=
  payload [m.transferId.bytes, if 1 < m.streams then [m.streams] else []]

def decode : PayloadDecoder TransferBegin := do
  need 16 (.malformed "TRANSFER_BEGIN: truncated")
  let transferId ← readTransferId "TRANSFER_BEGIN: bad transfer_id"
  let rest ← takeRest
  return ⟨transferId, match rest with | [] => 1 | b :: _ => max b 1⟩

end TransferBegin

structure Verify where
  transferId : TransferId
  expectedHash : Hash
deriving DecidableEq

namespace Verify

def encode (m : Verify) : Except Failure Bytes := payload [m.transferId.bytes, m.expectedHash.bytes]

def decode : PayloadDecoder Verify := do
  need (16 + 32) (.malformed "VERIFY: truncated")
  let transferId ← readTransferId "VERIFY: bad transfer_id"
  let expectedHash ← readHash "VERIFY: bad hash"
  return ⟨transferId, expectedHash⟩

end Verify

structure VerifyResult where
  transferId : TransferId
  ok : Bool
  computedHash : Hash
deriving DecidableEq

namespace VerifyResult

def encode (m : VerifyResult) : Except Failure Bytes :=
  payload [m.transferId.bytes, flagField m.ok, zeros 7, m.computedHash.bytes]

def decode : PayloadDecoder VerifyResult := do
  need (16 + 1 + 7 + 32) (.malformed "VERIFY_RESULT: truncated")
  let transferId ← readTransferId "VERIFY_RESULT: bad transfer_id"
  let ok ← readFlag "VERIFY_RESULT: bad ok"
  skip 7
  let computedHash ← readHash "VERIFY_RESULT: bad hash"
  return ⟨transferId, ok, computedHash⟩

end VerifyResult

structure Commit where
  transferId : TransferId
deriving DecidableEq

namespace Commit

def encode (m : Commit) : Except Failure Bytes := payload [m.transferId.bytes]

def decode : PayloadDecoder Commit := do
  need 16 (.malformed "COMMIT: truncated")
  let transferId ← readTransferId "COMMIT: bad transfer_id"
  return ⟨transferId⟩

end Commit

structure Committed where
  transferId : TransferId
  files : UInt32
deriving DecidableEq

namespace Committed

def encode (m : Committed) : Except Failure Bytes := payload [m.transferId.bytes, u32Field m.files]

def decode : PayloadDecoder Committed := do
  need (16 + 4) (.malformed "COMMITTED: truncated")
  let transferId ← readTransferId "COMMITTED: bad transfer_id"
  let files ← u32
  return ⟨transferId, files⟩

end Committed

structure Checkpoint where
  transferId : TransferId
  bytesTransferred : UInt64
  verifiedUpTo : UInt64
  tsMs : UInt64
  completedChunks : List UInt64
deriving DecidableEq

namespace Checkpoint

def encode (m : Checkpoint) : Except Failure Bytes := do
  checkField (maxWireChunks < m.completedChunks.length) "too many completed chunks"
  payload [m.transferId.bytes, u64Field m.bytesTransferred, u64Field m.verifiedUpTo, u64Field m.tsMs,
    encodeVarint m.completedChunks.length, indicesField m.completedChunks]

def decode : PayloadDecoder Checkpoint := do
  need (16 + 8 * 3) (.malformed "CHECKPOINT: truncated header")
  let transferId ← readTransferId "CHECKPOINT: bad transfer_id"
  let bytesTransferred ← u64
  let verifiedUpTo ← u64
  let tsMs ← u64
  let count ← varint
  refuse (maxWireChunks < count) (.malformed "too many completed chunks")
  let completedChunks ←
    readIndices "CHECKPOINT: truncated chunks" "CHECKPOINT: non-monotonic chunks" count none
  return ⟨transferId, bytesTransferred, verifiedUpTo, tsMs, completedChunks⟩

end Checkpoint

structure Resume where
  transferId : TransferId
  idempotencyKey : String
deriving DecidableEq

namespace Resume

def encode (m : Resume) : Except Failure Bytes := do
  checkField (0xFFFF < (utf8 m.idempotencyKey).length) "RESUME: idempotency_key too long"
  payload [m.transferId.bytes, strField m.idempotencyKey]

def decode : PayloadDecoder Resume := do
  need 16 (.malformed "RESUME: truncated")
  let transferId ← readTransferId "RESUME: bad transfer_id"
  let idempotencyKey ← readStr "RESUME: key length overflow" "RESUME: truncated key"
    "RESUME: key not UTF-8"
  return ⟨transferId, idempotencyKey⟩

end Resume

structure ResumeState where
  transferId : TransferId
  stagingRelpath : String
  fileSize : UInt64
  bytesCompleted : UInt64
  verifiedUpTo : UInt64
  fileHash : Hash
  completedChunks : List UInt64
deriving DecidableEq

namespace ResumeState

def encode (m : ResumeState) : Except Failure Bytes := do
  checkField (maxWireChunks < m.completedChunks.length) "too many completed chunks"
  checkField (0xFFFF < (utf8 m.stagingRelpath).length) "RESUME_STATE: path too long"
  payload [m.transferId.bytes, strField m.stagingRelpath, u64Field m.fileSize,
    u64Field m.bytesCompleted, u64Field m.verifiedUpTo, m.fileHash.bytes,
    encodeVarint m.completedChunks.length, indicesField m.completedChunks]

def decode : PayloadDecoder ResumeState := do
  need 16 (.malformed "RESUME_STATE: truncated")
  let transferId ← readTransferId "RESUME_STATE: bad transfer_id"
  let stagingRelpath ← readStrBefore (8 * 3 + 32) "RESUME_STATE: path length overflow"
    "RESUME_STATE: body length overflow" "RESUME_STATE: truncated body" "RESUME_STATE: path not UTF-8"
  let fileSize ← u64
  let bytesCompleted ← u64
  let verifiedUpTo ← u64
  let fileHash ← readHash "RESUME_STATE: bad hash"
  let count ← varint
  refuse (maxWireChunks < count) (.malformed "too many completed chunks")
  let completedChunks ←
    readIndices "RESUME_STATE: truncated chunks" "RESUME_STATE: non-monotonic chunks" count none
  return ⟨transferId, stagingRelpath, fileSize, bytesCompleted, verifiedUpTo, fileHash,
    completedChunks⟩

end ResumeState

structure Cancel where
  transferId : TransferId
  reasonCode : UInt32
deriving DecidableEq

namespace Cancel

def encode (m : Cancel) : Except Failure Bytes := payload [m.transferId.bytes, u32Field m.reasonCode]

def decode : PayloadDecoder Cancel := do
  need (16 + 4) (.malformed "CANCEL: truncated")
  let transferId ← readTransferId "CANCEL: bad transfer_id"
  let reasonCode ← u32
  return ⟨transferId, reasonCode⟩

end Cancel

structure StatQuery where
  transferId : TransferId
deriving DecidableEq

namespace StatQuery

def encode (m : StatQuery) : Except Failure Bytes := payload [m.transferId.bytes]

def decode : PayloadDecoder StatQuery := do
  need 16 (.malformed "STAT: truncated")
  let transferId ← readTransferId "STAT: bad transfer_id"
  return ⟨transferId⟩

end StatQuery

structure StatResult where
  transferId : TransferId
  found : Bool
  status : String
  direction : String
  remotePath : String
  fileSize : UInt64
  bytesCompleted : UInt64
  verifiedUpTo : UInt64
  createdMs : UInt64
  updatedMs : UInt64
deriving DecidableEq

namespace StatResult

def encode (m : StatResult) : Except Failure Bytes := do
  checkField (0xFFFF < (utf8 m.status).length) "STAT_RESULT: field too long"
  checkField (0xFFFF < (utf8 m.direction).length) "STAT_RESULT: field too long"
  checkField (0xFFFF < (utf8 m.remotePath).length) "STAT_RESULT: field too long"
  payload [m.transferId.bytes, flagField m.found, zeros 1, strField m.status, strField m.direction,
    strField m.remotePath, u64Field m.fileSize, u64Field m.bytesCompleted, u64Field m.verifiedUpTo,
    u64Field m.createdMs, u64Field m.updatedMs]

def readField : PayloadDecoder String :=
  readStr "STAT_RESULT: string length overflow" "STAT_RESULT: truncated string"
    "STAT_RESULT: not UTF-8"

def decode : PayloadDecoder StatResult := do
  need (16 + 2) (.malformed "STAT_RESULT: truncated")
  let transferId ← readTransferId "STAT_RESULT: bad transfer_id"
  let found ← readFlag "STAT_RESULT: bad found flag"
  skip 1
  let status ← readField
  let direction ← readField
  let remotePath ← readField
  need (8 * 5) (.malformed "STAT_RESULT: truncated numbers")
  let fileSize ← u64
  let bytesCompleted ← u64
  let verifiedUpTo ← u64
  let createdMs ← u64
  let updatedMs ← u64
  return ⟨transferId, found, status, direction, remotePath, fileSize, bytesCompleted, verifiedUpTo,
    createdMs, updatedMs⟩

end StatResult

structure ListQuery where
  urlPrefix : String
deriving DecidableEq

namespace ListQuery

def encode (m : ListQuery) : Except Failure Bytes := do
  checkField (0xFFFF < (utf8 m.urlPrefix).length) "LIST: prefix too long"
  payload [strField m.urlPrefix]

def decode : PayloadDecoder ListQuery := do
  let urlPrefix ← readStr "LIST: prefix length overflow" "LIST: truncated prefix" "LIST: not UTF-8"
  return ⟨urlPrefix⟩

end ListQuery

structure ListResult where
  entries : List StatResult
deriving DecidableEq

namespace ListResult

def entriesFields : List StatResult → Except Failure (List Bytes)
  | [] => .ok []
  | e :: entries => do
    let body ← e.encode
    let later ← entriesFields entries
    return (encodeVarint body.length ++ body) :: later

def encode (m : ListResult) : Except Failure Bytes := do
  checkField (maxWireChunks < m.entries.length) "LIST_RESULT: too many entries"
  let fields ← entriesFields m.entries
  payload (encodeVarint m.entries.length :: fields)

def readEntry : PayloadDecoder StatResult := do
  need 1 (.malformed "LIST_RESULT: truncated entry length")
  let n ← varint
  checkedAdd n (.malformed "LIST_RESULT: entry length overflow")
  need n (.malformed "LIST_RESULT: truncated entry")
  let body ← take n
  result (StatResult.decode.run body)

def decode : PayloadDecoder ListResult := do
  let count ← varint
  refuse (maxWireChunks < count) (.malformed "LIST_RESULT: too many entries")
  let entries ← many readEntry count
  return ⟨entries⟩

end ListResult

end Velcrux.Wire
