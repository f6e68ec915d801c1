import Mathlib

/-!
# Identifiers, digests and machine integers

The value types every part of velcrux shares (`util`). Sizes and offsets are `u64` and are kept as
natural numbers, with the width written out where the code relies on it.
-/

namespace Velcrux

abbrev Bytes := List UInt8

def u64Max : ℕ := 2 ^ 64 - 1

def isizeMax : ℕ := 2 ^ 63 - 1

def saturatingAdd (a b : ℕ) : ℕ := min (a + b) u64Max

def wrappingSub (a b : ℕ) : ℕ := (a + 2 ^ 64 - b) % 2 ^ 64

def isWhitespace (c : Char) : Bool :=
  (0x09 ≤ c.toNat && c.toNat ≤ 0x0d) || c.toNat == 0x20 || c.toNat == 0x85 || c.toNat == 0xa0 ||
    c.toNat == 0x1680 || (0x2000 ≤ c.toNat && c.toNat ≤ 0x200a) || c.toNat == 0x2028 ||
    c.toNat == 0x2029 || c.toNat == 0x202f || c.toNat == 0x205f || c.toNat == 0x3000

def trim (cs : List Char) : List Char :=
  ((cs.dropWhile isWhitespace).reverse.dropWhile isWhitespace).reverse

def maxBatchDecompressedBytes : ℕ := 16 * 1024 * 1024

def chunkHashBytes : ℕ := 32

structure Hash where
  bytes : Bytes
  length_eq : bytes.length = chunkHashBytes
deriving DecidableEq

namespace Hash

def zero : Hash := ⟨List.replicate 32 0, rfl⟩

def fromBytes (b : Bytes) : Option Hash :=
  if h : b.length = chunkHashBytes then some ⟨b, h⟩ else none

def repeated (b : UInt8) : Hash := ⟨List.replicate 32 b, by simp [chunkHashBytes]⟩

def toHex (h : Hash) : String :=
  String.ofList (h.bytes.flatMap fun b => [Nat.digitChar (b.toNat / 16), Nat.digitChar (b.toNat % 16)])

def shortHex (h : Hash) (n : ℕ) : String := String.ofList (h.toHex.toList.take n)

@[simp] theorem fromBytes_bytes (h : Hash) : fromBytes h.bytes = some h := by
  simp [fromBytes, h.length_eq]

theorem inj_of_append {x y : Hash} {r r' : Bytes} (h : x.bytes ++ r = y.bytes ++ r') :
    x = y ∧ r = r' := by
  obtain ⟨hbytes, hr⟩ := List.append_inj h (x.length_eq.trans y.length_eq.symm)
  obtain ⟨x, hx⟩ := x
  cases hbytes
  exact ⟨rfl, hr⟩

end Hash

/-- The whole-input digest function. BLAKE3 is not under `src/`, so everything that hashes takes the
function as a parameter. -/
abbrev HashFn := Bytes → Hash

def HashFn.ofZeros (H : HashFn) (len : ℕ) : Hash := H (List.replicate len 0)

/-- A digest that can be evaluated: inputs of one length modulo 256 collide. -/
def lengthHash : HashFn := fun data => .repeated (.ofNat data.length)

structure TransferId where
  bytes : Bytes
  length_eq : bytes.length = 16
deriving DecidableEq

namespace TransferId

def zero : TransferId := ⟨List.replicate 16 0, rfl⟩

/-- `TransferId::from_bytes`: `none` on a length mismatch. -/
def fromBytes (b : Bytes) : Option TransferId :=
  if h : b.length = 16 then some ⟨b, h⟩ else none

@[simp] theorem fromBytes_bytes (t : TransferId) : fromBytes t.bytes = some t := by
  simp [fromBytes, t.length_eq]

end TransferId

end Velcrux
