import Velcrux.Util
import Velcrux.Error

/-!
# Chunkers

The three chunkers of `chunking`: fixed-size, the rolling gear hash and FastCDC.
-/

namespace Velcrux.Chunking

inductive ChunkMode where
  | cdc
  | fixed
  | fastCdc
deriving DecidableEq

structure ChunkParams where
  min : ℕ
  target : ℕ
  max : ℕ
  accepted : min ≠ 0 ∧ max ≠ 0 ∧ (min = target ∧ target = max ∨ min < target ∧ target < max)
  max_le : max ≤ u64Max
deriving DecidableEq

namespace ChunkParams

def new (min target max : ℕ) : Option ChunkParams :=
  if h : max ≤ u64Max ∧ min ≠ 0 ∧ max ≠ 0 ∧
      (min = target ∧ target = max ∨ min < target ∧ target < max) then
    some ⟨min, target, max, h.2, h.1⟩
  else none

def default : ChunkParams := ⟨256 * 1024, 1024 * 1024, 4 * 1024 * 1024, by decide, by decide⟩

end ChunkParams

structure ChunkBoundary where
  offset : ℕ
  length : ℕ
deriving DecidableEq

def ChunkBoundary.endOff (b : ChunkBoundary) : ℕ := b.offset + b.length

structure FixedChunker where
  params : ChunkParams
  inChunk : ℕ
  nextOffset : ℕ
  finished : Bool
deriving DecidableEq

variable (params : ChunkParams)

namespace FixedChunker

def new : FixedChunker := ⟨params, 0, 0, false⟩

/-- The `while offset_in_buf < buf_len` loop of `push`, on the number of bytes left in the buffer.
Every round that ends a chunk takes the bytes the chunk still needs. -/
def pushLoop : ℕ → FixedChunker → ℕ → FixedChunker × List ChunkBoundary
  | 0, c, _ => (c, [])
  | fuel + 1, c, available =>
    if available = 0 then (c, [])
    else
      let needed := c.params.target - c.inChunk
      if available < needed then ({ c with inChunk := c.inChunk + available }, [])
      else
        let length := c.inChunk + needed
        let r := pushLoop fuel { c with inChunk := 0, nextOffset := c.nextOffset + length }
          (available - needed)
        (r.1, ⟨c.nextOffset, length⟩ :: r.2)

def push (c : FixedChunker) (buf : Bytes) :
    Except VelcruxError (FixedChunker × List ChunkBoundary) :=
  if c.finished then .error (.protocol (.malformed "FixedChunker: pushed after finish"))
  else if c.params.target = 0 then
    .error (.protocol (.malformed "FixedChunker: target chunk size is 0"))
  else .ok (pushLoop (buf.length + 1) c buf.length)

end FixedChunker

def gearTable : List ℕ := [
    0xc4, 0x08, 0xae, 0x34, 0x74, 0x88, 0xc6, 0xf5, 0xb8, 0x36, 0x71, 0x97, 0x49, 0x4b, 0xff, 0x64,
    0x6e, 0x60, 0x4e, 0x6a, 0x87, 0x29, 0x55, 0x17, 0xb0, 0x1c, 0x46, 0xde, 0xef, 0x2a, 0xd7, 0x93,
    0x5c, 0xda, 0x37, 0x48, 0x83, 0x01, 0x65, 0xf9, 0xdd, 0xa1, 0xe3, 0x53, 0xc9, 0x2b, 0xd3, 0x20,
    0x51, 0x9f, 0x3b, 0xc5, 0xdb, 0xd2, 0x59, 0xd8, 0x96, 0x68, 0x3c, 0x00, 0x84, 0x8d, 0x52, 0xdc,
    0x58, 0xa4, 0xc8, 0x38, 0x67, 0x54, 0x30, 0x2e, 0xa7, 0x42, 0x06, 0x61, 0x81, 0xca, 0x76, 0xe7,
    0x07, 0x92, 0x14, 0x9e, 0x0b, 0x0f, 0xcb, 0xb7, 0xf1, 0x1b, 0x8f, 0x7c, 0xd5, 0xed, 0x40, 0xa0,
    0x5d, 0xc1, 0xa9, 0x5f, 0x91, 0x85, 0x90, 0xaa, 0x2f, 0x1d, 0xa5, 0xe1, 0xb6, 0xd6, 0x0c, 0x8c,
    0xf6, 0x3e, 0xe8, 0xec, 0xf0, 0x6d, 0x02, 0x78, 0x12, 0x9d, 0xba, 0xab, 0x16, 0x0e, 0x9b, 0x3f,
    0xfa, 0xea, 0x13, 0x56, 0x9c, 0xc3, 0xf8, 0x09, 0xdf, 0x89, 0xcd, 0x69, 0xe0, 0x50, 0xc0, 0xb2,
    0x6b, 0x21, 0x44, 0xc2, 0x8a, 0x31, 0x1a, 0xbe, 0x2c, 0x35, 0x1f, 0x63, 0xa8, 0x23, 0x4c, 0x5b,
    0xe6, 0xd1, 0x15, 0xe4, 0x82, 0x10, 0xbd, 0x7e, 0x41, 0xfe, 0xb5, 0x9a, 0x77, 0x47, 0xaf, 0xfd,
    0xb9, 0x98, 0x73, 0x4f, 0xbf, 0x24, 0x99, 0xfb, 0x72, 0xb3, 0xb4, 0x79, 0x6c, 0x22, 0xcf, 0x33,
    0x70, 0x27, 0xbc, 0xe5, 0x8e, 0xf7, 0x18, 0xf4, 0xee, 0x5e, 0xe2, 0xf2, 0xd0, 0x95, 0xe9, 0x39,
    0x7a, 0xeb, 0x80, 0xbb, 0xcc, 0x25, 0x5a, 0xce, 0x8b, 0x43, 0x1e, 0x32, 0x3d, 0x7d, 0x57, 0x3a,
    0x86, 0x0d, 0xac, 0x05, 0x66, 0x03, 0xd9, 0x4d, 0x7f, 0xa6, 0xa2, 0xb1, 0x62, 0x2d, 0x04, 0x28,
    0xfc, 0x6f, 0x0a, 0x11, 0x26, 0xc7, 0x94, 0xa3, 0x7b, 0x75, 0x19, 0xd4, 0xf3, 0x4a, 0x45, 0xad]

def gear (b : UInt8) : ℕ := gearTable.getD b.toNat 0

/-- Between two read buffers it keeps hash, length and offset of the chunk in progress. -/
structure RollingChunker where
  params : ChunkParams
  mask : ℕ
  maskBits : ℕ
  sum : ℕ
  inChunk : ℕ
  nextOffset : ℕ
  finished : Bool
deriving DecidableEq

namespace RollingChunker

def new : RollingChunker :=
  let maskBits := Nat.max (Nat.log2 params.target) 1
  let mask := if 32 ≤ maskBits then 2 ^ 32 - 1 else 2 ^ maskBits - 1
  ⟨params, mask, maskBits, 0, 0, 0, false⟩

def feed (c : RollingChunker) (b : UInt8) : RollingChunker × Option ChunkBoundary :=
  let sum := (c.sum * 16 + gear b) % 2 ^ 32
  let inChunk := c.inChunk + 1
  if (sum &&& c.mask = 0 ∧ c.params.min ≤ inChunk) ∨ c.params.max ≤ inChunk then
    ({ c with sum := 0, inChunk := 0, nextOffset := c.nextOffset + inChunk },
      some ⟨c.nextOffset, inChunk⟩)
  else ({ c with sum := sum, inChunk := inChunk }, none)

def pushLoop (c : RollingChunker) : Bytes → RollingChunker × List ChunkBoundary
  | [] => (c, [])
  | b :: bs =>
    let f := c.feed b
    let r := pushLoop f.1 bs
    (r.1, f.2.toList ++ r.2)

def push (c : RollingChunker) (buf : Bytes) :
    Except VelcruxError (RollingChunker × List ChunkBoundary) :=
  if c.finished then .error (.protocol (.malformed "RollingChunker: pushed after finish"))
  else .ok (c.pushLoop buf)

end RollingChunker

def xorshift (s : ℕ) : ℕ :=
  let s := s ^^^ (s <<< 13 % 2 ^ 64)
  let s := s ^^^ (s >>> 7)
  s ^^^ (s <<< 17 % 2 ^ 64)

def gear64 (b : UInt8) : ℕ := Nat.iterate xorshift (b.toNat + 1) 0x9E3779B97F4A7C15

structure FastCdcChunker where
  params : ChunkParams
  maskS : ℕ
  maskL : ℕ
  fingerprint : ℕ
  inChunk : ℕ
  nextOffset : ℕ
  finished : Bool
deriving DecidableEq

namespace FastCdcChunker

def new : FastCdcChunker :=
  let bits := Nat.log2 params.target
  let maskSBits := Nat.max (Nat.min (bits + 1) 63) 1
  let maskLBits := Nat.max (Nat.min (bits - 1) 63) 1
  ⟨params, 2 ^ maskSBits - 1, 2 ^ maskLBits - 1, 0, 0, 0, false⟩

def scanCut (c : FastCdcChunker) : Bytes → FastCdcChunker × Option ChunkBoundary × Bytes
  | [] => (c, none, [])
  | b :: bs =>
    let fingerprint := (c.fingerprint * 2 + gear64 b) % 2 ^ 64
    let inChunk := c.inChunk + 1
    let mask := if inChunk < c.params.target then c.maskS else c.maskL
    if fingerprint &&& mask = 0 ∨ c.params.max ≤ inChunk then
      ({ c with fingerprint := 0, inChunk := 0, nextOffset := c.nextOffset + inChunk },
        some ⟨c.nextOffset, inChunk⟩, bs)
    else scanCut { c with fingerprint := fingerprint, inChunk := inChunk } bs

def skip (c : FastCdcChunker) (buf : Bytes) : FastCdcChunker × Bytes :=
  if c.inChunk < c.params.min then
    let toSkip := Nat.min (c.params.min - c.inChunk) buf.length
    ({ c with inChunk := c.inChunk + toSkip }, buf.drop toSkip)
  else (c, buf)

def pushLoop : ℕ → FastCdcChunker → Bytes → FastCdcChunker × List ChunkBoundary
  | 0, c, _ => (c, [])
  | fuel + 1, c, buf =>
    if buf = [] then (c, [])
    else
      let sk := c.skip buf
      -- the buffer ended inside the skipped region
      if sk.1.inChunk < sk.1.params.min then (sk.1, [])
      else
        let sc := sk.1.scanCut sk.2
        let r := pushLoop fuel sc.1 sc.2.2
        (r.1, sc.2.1.toList ++ r.2)

def push (c : FastCdcChunker) (buf : Bytes) :
    Except VelcruxError (FastCdcChunker × List ChunkBoundary) :=
  if c.finished then .error (.protocol (.malformed "FastCdcChunker: pushed after finish"))
  else .ok (pushLoop (buf.length + 1) c buf)

end FastCdcChunker

inductive Chunker where
  | fixed (c : FixedChunker)
  | rolling (c : RollingChunker)
  | fastCdc (c : FastCdcChunker)
deriving DecidableEq

def createChunker (mode : ChunkMode) (params : ChunkParams) : Chunker :=
  match mode with
  | .fixed => .fixed (FixedChunker.new params)
  | .cdc => .rolling (RollingChunker.new params)
  | .fastCdc => .fastCdc (FastCdcChunker.new params)

namespace Chunker

def push (c : Chunker) (buf : Bytes) : Except VelcruxError (Chunker × List ChunkBoundary) :=
  match c with
  | .fixed c => (c.push buf).map fun r => (.fixed r.1, r.2)
  | .rolling c => (c.push buf).map fun r => (.rolling r.1, r.2)
  | .fastCdc c => (c.push buf).map fun r => (.fastCdc r.1, r.2)

def inChunk : Chunker → ℕ
  | .fixed c => c.inChunk
  | .rolling c => c.inChunk
  | .fastCdc c => c.inChunk

def nextOffset : Chunker → ℕ
  | .fixed c => c.nextOffset
  | .rolling c => c.nextOffset
  | .fastCdc c => c.nextOffset

end Chunker

end Velcrux.Chunking
