import Velcrux.Util

/-!
# The chunk completion bitmap

`state/bitmap`: the set of completed chunk indices with a running byte total.
-/

namespace Velcrux.State

/-- The bitmap carries no unit; what an index stands for is decided by whoever reads it. -/
structure ChunkBitmap where
  set : Finset ℕ
  bytesCompleted : ℕ
deriving DecidableEq

namespace ChunkBitmap

def new : ChunkBitmap := ⟨∅, 0⟩

variable (b : ChunkBitmap)

def markComplete (index chunkLen : ℕ) : ChunkBitmap :=
  if index ∈ b.set then b
  else ⟨insert index b.set, saturatingAdd b.bytesCompleted chunkLen⟩

def contains (index : ℕ) : Bool := index ∈ b.set

def len : ℕ := b.set.card

def firstMissingLoop (b : ChunkBitmap) : ℕ → ℕ → Option ℕ
  | 0, i => some i
  | fuel + 1, i =>
    if b.contains i then
      if saturatingAdd i 1 = u64Max then none else firstMissingLoop b fuel (saturatingAdd i 1)
    else some i

def firstMissingFrom (start : ℕ) : Option ℕ := b.firstMissingLoop b.len start

@[simp] theorem set_markComplete (index chunkLen : ℕ) :
    (b.markComplete index chunkLen).set = insert index b.set := by
  unfold markComplete
  split_ifs with h
  · exact (Finset.insert_eq_self.mpr h).symm
  · rfl

@[simp] theorem contains_iff {b : ChunkBitmap} {i : ℕ} : b.contains i = true ↔ i ∈ b.set := by
  simp [contains]

@[simp] theorem contains_eq_false {b : ChunkBitmap} {i : ℕ} : b.contains i = false ↔ i ∉ b.set := by
  simp [contains]

end ChunkBitmap

end Velcrux.State
