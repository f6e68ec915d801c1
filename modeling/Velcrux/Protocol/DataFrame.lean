import Velcrux.Foundations.ByteFile
import Velcrux.Foundations.LittleEndian
import Velcrux.Protocol.Compression

/-!
# The data-stream wire format

`protocol/frame`: every data stream starts with a 56-byte preamble and then carries DATA frames, a
48-byte header followed by the payload.
-/

namespace Velcrux.Protocol

open LittleEndian ByteFile

def dataPreambleLen : ℕ := 56

def dataFrameHeaderLen : ℕ := 48

def dataMaxChunkLen : ℕ := 4 * 1024 * 1024

def maxChunkSize : ℕ := 4 * 1024 * 1024

structure DataPreamble where
  transferId : TransferId
  fileId : ℕ
  streamSeq : ℕ
deriving DecidableEq

def encodeDataPreamble (p : DataPreamble) : Bytes :=
  p.transferId.bytes ++ encodeLE 8 p.fileId ++ encodeLE 8 p.streamSeq ++ List.replicate 24 0

def decodeDataPreamble (buf : Bytes) : Except ProtocolError DataPreamble :=
  if buf.length < dataPreambleLen then .error (.malformed "data preamble: truncated")
  else
    match TransferId.fromBytes (slice buf 0 16) with
    | none => .error (.malformed "data preamble: bad transfer_id")
    | some tid => .ok ⟨tid, decodeLE (slice buf 16 8), decodeLE (slice buf 24 8)⟩

structure DataFrameFlags where
  bits : ℕ
deriving DecidableEq

namespace DataFrameFlags

def none : DataFrameFlags := ⟨0⟩

def hole : DataFrameFlags := ⟨0x0001⟩

def compressedFlag : DataFrameFlags := ⟨0x0002⟩

def isHole (f : DataFrameFlags) : Bool := f.bits &&& 0x0001 ≠ 0

def compressed (f : DataFrameFlags) : Bool := f.bits &&& 0x0002 ≠ 0

end DataFrameFlags

structure DataFrameHeader where
  chunkOffset : ℕ
  chunkLen : ℕ
  flags : DataFrameFlags
  chunkHash : Hash
deriving DecidableEq

/-- A cast to a narrower field keeps the low bytes. -/
def encodeDataFrameHeader (h : DataFrameHeader) : Bytes :=
  encodeLE 8 h.chunkOffset ++ encodeLE 4 h.chunkLen ++ encodeLE 2 h.flags.bits ++ [0, 0] ++
    h.chunkHash.bytes

def decodeDataFrameHeader (buf : Bytes) : Except ProtocolError DataFrameHeader :=
  if buf.length < dataFrameHeaderLen then .error (.malformed "data frame: truncated header")
  else
    let chunkOffset := decodeLE (slice buf 0 8)
    let chunkLen := decodeLE (slice buf 8 4)
    if dataMaxChunkLen < chunkLen then .error (.malformed "data frame: chunk_len > max")
    else
      let flags : DataFrameFlags := ⟨decodeLE (slice buf 12 2)⟩
      if decodeLE (slice buf 14 2) ≠ 0 then .error (.malformed "data frame: reserved bits set")
      else
        match Hash.fromBytes (slice buf 16 32) with
        | none => .error (.malformed "data frame: bad chunk hash")
        | some chunkHash => .ok ⟨chunkOffset, chunkLen, flags, chunkHash⟩

def encodeDataFrame (chunkOffset chunkLen : ℕ) (flags : DataFrameFlags) (chunkHash : Hash)
    (payload : Bytes) : Bytes :=
  if flags.isHole then encodeDataFrameHeader ⟨chunkOffset, chunkLen, flags, chunkHash⟩
  else encodeDataFrameHeader ⟨chunkOffset, chunkLen, flags, chunkHash⟩ ++ payload

def encodeChosen (chunkOffset : ℕ) (chunkHash : Hash) (payload : Bytes) :
    Option Bytes → Bytes
  | some z => encodeDataFrame chunkOffset z.length .compressedFlag chunkHash z
  | none => encodeDataFrame chunkOffset payload.length .none chunkHash payload

def encodeDataFrameMaybeCompressed (Z : Compressor) (chunkOffset : ℕ) (chunkHash : Hash)
    (payload : Bytes) (enableCompression : Bool) : Bytes :=
  encodeChosen chunkOffset chunkHash payload
    (if enableCompression then compressIfBeneficial Z payload defaultMinSavings else none)

def encodeDataFrameAdaptive (Z : Compressor) (chunkOffset : ℕ) (chunkHash : Hash)
    (payload : Bytes) (selector : Selector) : Bytes × Selector :=
  let r := selector.processPayload Z payload
  (encodeChosen chunkOffset chunkHash payload r.1, r.2)

end Velcrux.Protocol
