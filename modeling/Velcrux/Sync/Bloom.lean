import Velcrux.Foundations.LittleEndian
import Velcrux.Util

/-!
# The Bloom filter of a chunk inventory

`sync/bloom`. The floating-point computation of the dimensions is a parameter (`Sizing`).
-/

namespace Velcrux.Sync

open List

variable {bits : Bytes} {i : ℕ}

def minBloomBits : ℕ := 64

def maxBloomBits : ℕ := 16 * 1024 * 1024 * 8

abbrev Sizing := ℕ → ℕ × ℕ

structure BloomFilter where
  numBits : ℕ
  numHashes : ℕ
  bitset : Bytes
  numBits_pos : 0 < numBits
  length_bitset : bitset.length = (numBits + 7) / 8
deriving DecidableEq

namespace BloomFilter

def bitMask (idx : ℕ) : UInt8 := 1 <<< UInt8.ofNat (idx % 8)

def setBit (bits : Bytes) (idx : ℕ) : Bytes := bits.modify (idx / 8) (· ||| bitMask idx)

def hasBit (bits : Bytes) (idx : ℕ) : Bool := bits.getD (idx / 8) 0 &&& bitMask idx != 0

@[simp] theorem length_foldl_setBit (bits : Bytes) (is : List ℕ) :
    (is.foldl setBit bits).length = bits.length := by
  induction is generalizing bits with
  | nil => rfl
  | cons i is ih => simp [ih, setBit]

def withDimensions (numBits numHashes : ℕ) : BloomFilter where
  numBits := min (max numBits minBloomBits) maxBloomBits
  numHashes := min (max numHashes 1) 16
  bitset := List.replicate ((min (max numBits minBloomBits) maxBloomBits + 7) / 8) 0
  numBits_pos := by simp [minBloomBits, maxBloomBits]
  length_bitset := length_replicate

def fromBytes (bitset : Bytes) (numBits numHashes : ℕ) : Except String BloomFilter :=
  if hbits : numBits < minBloomBits ∨ maxBloomBits < numBits then
    .error s!"invalid bit count {numBits}"
  else if numHashes = 0 ∨ 16 < numHashes then .error s!"invalid hash count {numHashes}"
  else if hlen : bitset.length ≠ (numBits + 7) / 8 then
    .error s!"bitset length mismatch: expected {(numBits + 7) / 8} bytes, got {bitset.length}"
  else .ok ⟨numBits, numHashes, bitset, by simp only [minBloomBits] at hbits; omega, by omega⟩

def new (sizing : Sizing) (expectedItems : ℕ) : BloomFilter :=
  withDimensions (sizing (max expectedItems 1)).1 (sizing (max expectedItems 1)).2

def hashPair (hash : Hash) : ℕ × ℕ :=
  (LittleEndian.decodeLE (hash.bytes.take 8),
    LittleEndian.decodeLE ((hash.bytes.drop 8).take 8) ||| 1)

variable (f : BloomFilter)

def bitIdx (hash : Hash) (i : ℕ) : ℕ :=
  ((hashPair hash).1 + i * (hashPair hash).2) % 2 ^ 64 % f.numBits

def probes (hash : Hash) : List ℕ := (List.range f.numHashes).map (f.bitIdx hash)

/-- A digest sets `num_hashes` bits, found by double hashing from its first sixteen bytes. -/
def insert (hash : Hash) : BloomFilter :=
  { f with
    bitset := (f.probes hash).foldl setBit f.bitset
    length_bitset := by rw [length_foldl_setBit, f.length_bitset] }

def contains (hash : Hash) : Bool := (f.probes hash).all (hasBit f.bitset)

theorem or_and_self (b m : UInt8) : (b ||| m) &&& m = m := by
  apply UInt8.toBitVec_inj.1
  simp only [UInt8.toBitVec_and, UInt8.toBitVec_or]
  grind

theorem or_and_ne_zero {b m : UInt8} (k : UInt8) (h : b &&& m ≠ 0) : (b ||| k) &&& m ≠ 0 := by
  intro h0
  have hb : b &&& m = b &&& ((b ||| k) &&& m) := by
    apply UInt8.toBitVec_inj.1
    simp only [UInt8.toBitVec_and, UInt8.toBitVec_or]
    grind
  rw [h0, UInt8.and_zero] at hb
  exact h hb

theorem bitMask_ne_zero (i : ℕ) : bitMask i ≠ 0 := by
  have hall : ∀ k < 8, (1 : UInt8) <<< UInt8.ofNat k ≠ 0 := by decide
  exact hall _ (Nat.mod_lt _ (by decide))

theorem hasBit_setBit_self (hi : i / 8 < bits.length) : hasBit (setBit bits i) i = true := by
  simp [hasBit, setBit, getD_eq_getElem?_getD, hi, or_and_self, bitMask_ne_zero]

theorem hasBit_setBit (j : ℕ) (h : hasBit bits i = true) : hasBit (setBit bits j) i = true := by
  simp only [hasBit, setBit, getD_eq_getElem?_getD, List.getElem?_modify, bne_iff_ne] at h ⊢
  split_ifs with hj
  · cases hb : bits[i / 8]? with
    | none => simp [hb] at h
    | some b =>
      simp only [hb, Option.getD_some] at h
      exact or_and_ne_zero _ h
  · simpa using h

theorem hasBit_foldl_setBit (is : List ℕ) (h : hasBit bits i = true) :
    hasBit (is.foldl setBit bits) i = true := by
  induction is generalizing bits with
  | nil => exact h
  | cons j is ih => exact ih (hasBit_setBit j h)

theorem hasBit_of_mem {is : List ℕ} (hmem : i ∈ is)
    (hi : i / 8 < bits.length) : hasBit (is.foldl setBit bits) i = true := by
  induction is generalizing bits with
  | nil => simp at hmem
  | cons j is ih =>
    rcases mem_cons.1 hmem with rfl | hmem
    · exact hasBit_foldl_setBit is (hasBit_setBit_self hi)
    · exact ih hmem (by simpa [setBit] using hi)

theorem bitIdx_lt (hash : Hash) (i : ℕ) : f.bitIdx hash i / 8 < f.bitset.length := by
  have hlt : f.bitIdx hash i < f.numBits := Nat.mod_lt _ f.numBits_pos
  rw [f.length_bitset]
  omega

theorem contains_insert (hash : Hash) : (f.insert hash).contains hash = true := by
  refine all_eq_true.2 fun i hi => hasBit_of_mem hi ?_
  obtain ⟨k, -, rfl⟩ := mem_map.1 hi
  exact bitIdx_lt f hash k

variable {f : BloomFilter} {h : Hash}

theorem contains_foldl_insert (hs : List Hash) (hf : f.contains h = true) :
    (hs.foldl insert f).contains h = true := by
  induction hs generalizing f with
  | nil => exact hf
  | cons k hs ih =>
    refine ih (all_eq_true.2 fun i hi => ?_)
    exact hasBit_foldl_setBit _ (all_eq_true.1 hf i hi)

theorem contains_foldl_insert_of_mem {hs : List Hash} (hmem : h ∈ hs) :
    (hs.foldl insert f).contains h = true := by
  induction hs generalizing f with
  | nil => simp at hmem
  | cons k hs ih =>
    rcases mem_cons.1 hmem with rfl | hmem
    · exact contains_foldl_insert hs (contains_insert f h)
    · exact ih hmem

structure Dimensioned (f : BloomFilter) : Prop where
  minBits_le : minBloomBits ≤ f.numBits
  le_maxBits : f.numBits ≤ maxBloomBits
  numHashes_pos : 0 < f.numHashes
  numHashes_le : f.numHashes ≤ 16

theorem dimensioned_withDimensions (numBits numHashes : ℕ) :
    (withDimensions numBits numHashes).Dimensioned := by
  constructor <;> simp [withDimensions, minBloomBits, maxBloomBits]

theorem Dimensioned.foldl_insert (hf : f.Dimensioned) (hs : List Hash) :
    (hs.foldl insert f).Dimensioned := by
  induction hs generalizing f with
  | nil => exact hf
  | cons k hs ih => exact ih { hf with }

theorem Dimensioned.fromBytes (hf : f.Dimensioned) :
    fromBytes f.bitset f.numBits f.numHashes = .ok f := by
  obtain ⟨hmin, hmax, hpos, hle⟩ := hf
  rw [BloomFilter.fromBytes, dif_neg (by omega), if_neg (by omega), dif_neg (by simp [f.length_bitset])]

end BloomFilter

end Velcrux.Sync
