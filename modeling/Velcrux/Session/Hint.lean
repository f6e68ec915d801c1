import Velcrux.Storage.ChunkStore
import Velcrux.Sync.Inventory
import Velcrux.Wire.Proofs.PayloadProofs

/-!
# The filter a receiver sends

The INVENTORY_HINT of `handle_transfer_create` carries the filter of a chunk store, with the digests
of the destination's inventory inserted; the client rebuilds the filter from it.
-/

namespace Velcrux.Session

open Sync Storage Wire Decoding BloomFilter

variable (transferId : TransferId)

def hintOf (bloom : BloomFilter) : InventoryHint :=
  ⟨transferId, UInt32.ofNat bloom.numBits, UInt8.ofNat bloom.numHashes, bloom.bitset⟩

def Rebuilds (f g : BloomFilter) : Prop :=
  ∃ bytes hint, (hintOf transferId f).encode = .ok bytes ∧ InventoryHint.decode.run bytes = .ok hint ∧
    fromBytes hint.bitset hint.filterBits.toNat hint.numHashes.toNat = .ok g

theorem rebuilds_self {f : BloomFilter} (hf : f.Dimensioned) : Rebuilds transferId f f := by
  have hbits := hf.le_maxBits
  have hhashes := hf.numHashes_le
  have hlen := f.length_bitset
  simp only [maxBloomBits] at hbits
  have hencode : (hintOf transferId f).encode = .ok _ := payload_of_le (by
    simp [hintOf, isizeMax]
    omega)
  refine ⟨_, hintOf transferId f, hencode, (decodesAll_inventoryHint hencode).run ?_, ?_⟩
  · simp [hintOf]
    omega
  · simp only [hintOf]
    rw [UInt32.toNat_ofNat_of_lt' (hbits.trans_lt (by decide)),
      UInt8.toNat_ofNat_of_lt' (hhashes.trans_lt (by decide)), hf.fromBytes]

/-! ## The filter of a chunk store -/

inductive Reached (env : StoreEnv) : LocalChunkStore → Prop
  | new (chunks : ChunkDir) : Reached env (.new env chunks)
  | put {store : LocalChunkStore} (fails : Bool) (h : Hash) (data : Bytes) (hs : Reached env store) :
    Reached env (store.put env fails h data).1
  | remove {store : LocalChunkStore} (h : Hash) (hs : Reached env store) :
    Reached env (store.remove h)

variable {env : StoreEnv} {store : LocalChunkStore} {h : Hash}

theorem Reached.dimensioned (hs : Reached env store) : store.bloom.Dimensioned := by
  induction hs with
  | new chunks => exact (dimensioned_withDimensions _ _).foldl_insert _
  | put fails h data _ ih =>
    unfold LocalChunkStore.put
    split_ifs
    · exact ih
    · exact ih
    · exact ih
    · exact ih.foldl_insert [h]
  | remove h _ ih => exact ih

theorem Reached.contains (hs : Reached env store) (hmem : h ∈ store.chunks) :
    store.bloom.contains h = true := by
  induction hs with
  | new chunks => exact contains_foldl_insert_of_mem hmem
  | put fails k data _ ih =>
    unfold LocalChunkStore.put at hmem ⊢
    split_ifs at hmem ⊢
    · exact ih hmem
    · exact ih hmem
    · exact ih hmem
    · rcases (AList.mem_insert _).1 hmem with rfl | hmem
      · exact contains_insert _ _
      · exact contains_foldl_insert [k] (ih hmem)
  | remove k _ ih => exact ih (AList.mem_erase.1 hmem).2

theorem rebuilds_contains :
    (∀ (numBits : UInt32) (numHashes : UInt8) (transferId : TransferId) (hashes : List Hash),
      ∃ g, Rebuilds transferId (hashes.foldl .insert (.withDimensions numBits.toNat numHashes.toNat)) g ∧
        ∀ h ∈ hashes, g.contains h = true) ∧
    ∀ (env : StoreEnv) (store : LocalChunkStore) (inv : LocalInventory) (order : List Hash)
      (transferId : TransferId), Reached env store → order.Perm inv.chunkHashes →
      ∃ g, Rebuilds transferId (order.foldl .insert store.bloom) g ∧
        ∀ h, h ∈ inv.chunkHashes ∨ h ∈ store.chunks ∨ store.bloom.contains h = true →
          g.contains h = true := by
  constructor
  · intro numBits numHashes transferId hashes
    have hdim := (dimensioned_withDimensions numBits.toNat numHashes.toNat).foldl_insert hashes
    exact ⟨_, rebuilds_self transferId hdim, fun h hmem => contains_foldl_insert_of_mem hmem⟩
  · intro env store inv order transferId hs hperm
    refine ⟨_, rebuilds_self transferId (hs.dimensioned.foldl_insert order), ?_⟩
    rintro h (hmem | hmem | hmem)
    · exact contains_foldl_insert_of_mem (hperm.mem_iff.2 hmem)
    · exact contains_foldl_insert order (hs.contains hmem)
    · exact contains_foldl_insert order hmem

theorem rebuilds_contains_stored :
    ∃ store : LocalChunkStore, ∃ g, store.chunks.keys = [.repeated 2] ∧
      Rebuilds .zero ([.repeated 1, .repeated 3].foldl .insert store.bloom) g ∧
      g.contains (.repeated 1) = true ∧ g.contains (.repeated 2) = true := by
  let env : StoreEnv := ⟨fun _ => .repeated 2, fun _ => (64, 1)⟩
  obtain ⟨g, hg, hc⟩ := rebuilds_contains.2 env _ ⟨[(.repeated 1, ⟨0, 1⟩), (.repeated 3, ⟨1, 1⟩)]⟩
    [.repeated 1, .repeated 3] .zero (.put false (.repeated 2) [5] (.new ∅)) (.refl _)
  exact ⟨_, g, by decide, hg, hc _ (.inl (by decide)), hc _ (.inr (.inl (by decide)))⟩

end Velcrux.Session
