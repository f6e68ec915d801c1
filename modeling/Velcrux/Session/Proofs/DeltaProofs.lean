import Velcrux.Session.Resume

/-!
# What pre-staging produces

For the query of an honest client, when what the server finds is genuine, the pre-staged file has
the declared size and shows the client's file in every marked 64 KiB slot.
-/

namespace Velcrux.Session

open State Sync Transfer ByteFile List

variable {H : HashFn} {src : DeltaSource} {file : SourceFile}

/-! ## The query -/

section
variable {inv : Option LocalInventory} {n i dst len : ℕ} {hs : List Hash} {hash : Hash} {e : ChunkExtent}

theorem matching_answerQuery : (answerQuery src inv n i hs).matching = (hs.zipIdx i).filterMap fun x =>
    (inv.bind fun inv => inv.lookup x.1).map fun e => (x.2 * (64 * 1024), e) := by
  induction hs generalizing i with
  | nil => rfl
  | cons x hs ih =>
    rw [answerQuery, zipIdx_cons, filterMap_cons, ← ih]
    cases inv.bind fun inv => inv.lookup x with
    | some e => rfl
    | none => split_ifs <;> rfl

theorem matchingStore_answerQuery : (answerQuery src inv n i hs).matchingStore =
    (hs.zipIdx i).filterMap fun x =>
      if (inv.bind fun inv => inv.lookup x.1) = none ∧ src.storeContains x.1 then
        some (x.2 * (64 * 1024), x.1, Nat.min (wrappingSub n (x.2 * (64 * 1024))) (64 * 1024))
      else none := by
  induction hs generalizing i with
  | nil => rfl
  | cons x hs ih =>
    rw [answerQuery, zipIdx_cons, filterMap_cons, ← ih]
    cases inv.bind fun inv => inv.lookup x with
    | some e => simp
    | none => by_cases hc : src.storeContains x <;> simp [hc]

theorem exists_mem_zipIdx {p : Hash → ℕ → Prop} : (∃ x ∈ hs.zipIdx i, p x.1 x.2) ↔
    ∃ k, ∃ hk : k < hs.length, p hs[k] (i + k) := by
  constructor
  · rintro ⟨x, hx, hp⟩
    obtain ⟨hle, hlt, hget⟩ := mem_zipIdx hx
    exact ⟨x.2 - i, by omega, by rwa [← hget, Nat.add_sub_cancel' hle]⟩
  · rintro ⟨k, hk, hp⟩
    exact ⟨(hs[k], i + k), List.mk_add_mem_zipIdx_iff_getElem?.mpr (List.getElem?_eq_getElem hk), hp⟩

theorem mem_matching : (dst, e) ∈ (answerQuery src inv n i hs).matching ↔
    ∃ k, ∃ hk : k < hs.length, dst = (i + k) * (64 * 1024) ∧
      (inv.bind fun inv => inv.lookup hs[k]) = some e := by
  rw [matching_answerQuery, mem_filterMap, ← exists_mem_zipIdx (p := fun h k =>
    dst = k * (64 * 1024) ∧ (inv.bind fun inv => inv.lookup h) = some e)]
  simp only [Option.map_eq_some_iff, Prod.mk.injEq]
  grind

theorem mem_matchingStore : (dst, hash, len) ∈ (answerQuery src inv n i hs).matchingStore ↔
    ∃ k, ∃ hk : k < hs.length, dst = (i + k) * (64 * 1024) ∧ hash = hs[k] ∧
      src.storeContains hash = true ∧ len = Nat.min (wrappingSub n dst) (64 * 1024) ∧
      (inv.bind fun inv => inv.lookup hash) = none := by
  rw [matchingStore_answerQuery, ← exists_mem_zipIdx (p := fun h k =>
    dst = k * (64 * 1024) ∧ hash = h ∧ src.storeContains hash = true ∧
      len = Nat.min (wrappingSub n dst) (64 * 1024) ∧ (inv.bind fun inv => inv.lookup hash) = none)]
  grind
end

structure PrestagedOk (file : SourceFile) (p : Prestaged) : Prop where
  length_eq : p.staging.length = file.size
  lt_size : ∀ idx ∈ p.bitmap.set, idx * deltaChunkSize < file.size
  agrees : ∀ i < file.size, i / deltaChunkSize ∈ p.bitmap.set → Agrees file.bytes p.staging i

theorem PrestagedOk.copy {p : Prestaged} (h : PrestagedOk file p) {idx : ℕ} (len : ℕ)
    (hidx : idx * deltaChunkSize < file.size) :
    PrestagedOk file ⟨writeAt p.staging (idx * deltaChunkSize)
      (chunkAt file.bytes deltaChunkSize idx).2, p.bitmap.markComplete idx len⟩ := by
  have hD : 0 < deltaChunkSize := by decide
  have hsize : file.size = file.bytes.length := rfl
  have hwrite : writeAt p.staging (idx * deltaChunkSize) (chunkAt file.bytes deltaChunkSize idx).2 =
      writeAll p.staging [chunkAt file.bytes deltaChunkSize idx] := by
    rw [writeAll_cons, writeAll_nil, chunkAt]
  have hlen : (chunkAt file.bytes deltaChunkSize idx).2.length =
      min deltaChunkSize (file.bytes.length - idx * deltaChunkSize) := length_chunkAt
  have hpiece : ∀ q ∈ [chunkAt file.bytes deltaChunkSize idx], PieceOf file.bytes q := by
    intro q hq
    rw [mem_singleton.mp hq]
    exact pieceOf_chunkAt _ _ _
  refine ⟨?_, ?_, ?_⟩
  · have hp := h.length_eq
    rw [length_writeAt_of_le (by omega), hp]
  · intro j hj
    rw [ChunkBitmap.set_markComplete] at hj
    rcases Finset.mem_insert.mp hj with rfl | hj
    · exact hidx
    · exact h.lt_size j hj
  · intro i hi hmem
    rw [ChunkBitmap.set_markComplete] at hmem
    refine agrees_writeAll hpiece ?_
    rcases Finset.mem_insert.mp hmem with hslot | hmem
    · refine .inr ⟨_, mem_singleton.mpr rfl, ?_⟩
      rw [← hslot]
      exact covers_chunkAt hD hi
    · exact .inl (h.agrees i hi hmem)

end Velcrux.Session
