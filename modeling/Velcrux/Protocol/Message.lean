import Velcrux.Util

/-!
# Control messages

The fields of the control messages that the session handlers read and write (`protocol/message`).
-/

namespace Velcrux.Protocol

inductive TransferOp where
  | upload
  | download
  | syncUpload
  | syncDownload
  | delete
  | symlink
  | hardlink
  | setXattr
  | syncDelete
deriving DecidableEq

structure TransferCreate where
  op : TransferOp
  srcPath : String
  dstPath : String
  idempotencyKey : String
  fileSize : ℕ
  fileHash : Hash
deriving DecidableEq

end Velcrux.Protocol
