import Velcrux.Manifest.Stream

/-!
# Proofs: what a manifest writer leaves in the spill file

A writer that returns has written the batches of its entries one after another, and its messages
carry the digest, the number and the summed sizes of the entries.
-/

namespace Velcrux.Manifest

open Protocol (Compressor)
open Wire List ManifestWriter UInt64

variable {Z : Compressor} {H : HashFn}
variable {entries : List FileEntry} {w : ManifestWriter} {out : ManifestBegin × ManifestEnd × Bytes}

theorem flatten_batchesFrom (pending entries : List FileEntry) :
    (batchesFrom pending entries).flatten = pending ++ entries := by
  induction entries generalizing pending with
  | nil =>
    rw [batchesFrom]
    split_ifs with hp <;> simp [hp]
  | cons e entries ih =>
    rw [batchesFrom]
    split_ifs
    · rw [flatten_cons, ih, nil_append, append_assoc, singleton_append]
    · rw [ih, append_assoc, singleton_append]

theorem mem_batchesFrom {pending b : List FileEntry}
    (hp : pending.length < manifestBatchSize) (hb : b ∈ batchesFrom pending entries) :
    b ≠ [] ∧ b.length ≤ manifestBatchSize := by
  induction entries generalizing pending with
  | nil =>
    rw [batchesFrom] at hb
    split_ifs at hb with hnil
    · cases hb
    · rw [mem_singleton.1 hb]
      exact ⟨hnil, hp.le⟩
  | cons e entries ih =>
    rw [batchesFrom] at hb
    split_ifs at hb with hfull
    · rcases mem_cons.1 hb with rfl | hb
      · refine ⟨by simp, ?_⟩
        rw [length_append, length_singleton]
        omega
      · exact ih (by decide) hb
    · exact ih (by omega) hb

/-! ## The spill file -/

inductive Spilled (Z : Compressor) : ℕ → List (List FileEntry) → Bytes → Prop
  | nil (i : ℕ) : Spilled Z i [] []
  | cons {i : ℕ} {b : List FileEntry} {bs : List (List FileEntry)} {z rest : Bytes}
      (hz : Z.encodeAll (b.flatMap encodeFileEntry) 3 = some z) (hrest : Spilled Z (i + 1) bs rest) :
      Spilled Z i (b :: bs) (spillRecord ⟨ofNat i, UInt32.ofNat b.length, z⟩ ++ rest)

theorem Spilled.cons_inv {i : ℕ} {b : List FileEntry} {bs : List (List FileEntry)} {file : Bytes}
    (h : Spilled Z i (b :: bs) file) :
    ∃ z rest, Z.encodeAll (b.flatMap encodeFileEntry) 3 = some z ∧ Spilled Z (i + 1) bs rest ∧
      file = spillRecord ⟨ofNat i, UInt32.ofNat b.length, z⟩ ++ rest := by
  cases h with
  | cons hz hrest => exact ⟨_, _, hz, hrest, rfl⟩

theorem flushBatch_ok {o : Option ManifestBatch × ManifestWriter} (h : w.flushBatch Z = .ok o) :
    w.batchEntries = [] ∧ o.2 = w ∨
    w.batchEntries ≠ [] ∧
      w.manifestBytes + (w.batchEntries.flatMap encodeFileEntry).length ≤ maxManifestBytes ∧
      ∃ z, Z.encodeAll (w.batchEntries.flatMap encodeFileEntry) 3 = some z ∧
        o.2 = w.spillBatch ⟨ofNat w.batchIndex, UInt32.ofNat w.batchEntries.length, z⟩ := by
  unfold flushBatch at h
  dsimp only at h
  split_ifs at h with hnil hbytes
  · cases h
    exact .inl ⟨hnil, rfl⟩
  · split at h
    · cases h
    · rename_i z hz
      cases h
      exact .inr ⟨hnil, not_lt.1 hbytes, z, hz, rfl⟩

structure Finished (Z : Compressor) (H : HashFn) (w : ManifestWriter) (entries : List FileEntry)
    (out : ManifestBegin × ManifestEnd × Bytes) : Prop where
  spill : ∃ tail, out.2.2 = w.spill ++ tail ∧
    Spilled Z w.batchIndex (batchesFrom w.batchEntries entries) tail
  hash : out.1.manifestHash = H (w.hashed ++ (w.batchEntries ++ entries).flatMap encodeFileEntry)
  total : out.1.totalBytes.toNat =
    (w.totalBytes.toNat + (entries.map fun e => e.size.toNat).sum) % 2 ^ 64
  count : out.1.fileCount = ofNat (w.fileCount + entries.length)
  entries_le : w.fileCount + entries.length ≤ maxManifestEntries
  bytes_le : w.manifestBytes + ((w.batchEntries ++ entries).flatMap encodeFileEntry).length ≤
    maxManifestBytes

theorem finished_nil
    (hcount : w.fileCount ≤ maxManifestEntries) (hbytes : w.manifestBytes ≤ maxManifestBytes)
    (h : w.finish Z H = .ok out) : Finished Z H w [] out := by
  unfold finish at h
  cases hflush : w.flushBatch Z with
  | error e =>
    rw [hflush] at h
    cases h
  | ok o =>
    rw [hflush] at h
    cases h
    rcases flushBatch_ok hflush with ⟨hnil, hw⟩ | ⟨hne, hle, z, hz, hw⟩
    · refine ⟨⟨[], ?_, ?_⟩, ?_, ?_, ?_, ?_, ?_⟩
      · simp [hw]
      · simpa [batchesFrom, hnil] using Spilled.nil w.batchIndex
      · simp [hw, hnil]
      · simp [hw]
      · simp [hw]
      · simpa using hcount
      · simpa [hnil] using hbytes
    · have hbatch := Spilled.cons hz (.nil (w.batchIndex + 1))
      refine ⟨⟨_, ?_, by rwa [batchesFrom, if_neg hne]⟩, ?_, ?_, ?_, ?_, ?_⟩
      · rw [append_nil]
        exact congrArg spill hw
      · simp [hw, spillBatch]
      · simp [hw, spillBatch]
      · simp [hw, spillBatch]
      · simpa using hcount
      · simpa using hle

theorem push_batchEntries (w : ManifestWriter) (e : FileEntry) :
    (w.push e).batchEntries = w.batchEntries ++ [e] := rfl

theorem push_pending (w : ManifestWriter) (e : FileEntry) (entries : List FileEntry) :
    (w.push e).batchEntries ++ entries = w.batchEntries ++ e :: entries := by
  rw [push_batchEntries, append_assoc, singleton_append]

theorem push_count (w : ManifestWriter) (e : FileEntry) (entries : List FileEntry) :
    (w.push e).fileCount + entries.length = w.fileCount + (e :: entries).length := by
  exact Nat.add_right_comm ..

theorem push_total (w : ManifestWriter) (e : FileEntry) (n : ℕ) :
    ((w.push e).totalBytes.toNat + n) % 2 ^ 64 =
      (w.totalBytes.toNat + (e.size.toNat + n)) % 2 ^ 64 := by
  have htotal : (w.push e).totalBytes.toNat = (w.totalBytes.toNat + e.size.toNat) % 2 ^ 64 :=
    UInt64.toNat_add ..
  omega

theorem Finished.of_push {e : FileEntry}
    (hroom : ¬ manifestBatchSize ≤ (w.push e).batchEntries.length)
    (h : Finished Z H (w.push e) entries out) : Finished Z H w (e :: entries) out := by
  refine ⟨?_, ?_, ?_, ?_, ?_, ?_⟩
  · rw [push_batchEntries] at hroom
    rw [batchesFrom, if_neg hroom]
    exact h.spill
  · rw [← push_pending]
    exact h.hash
  · rw [h.total, push_total, map_cons, sum_cons]
  · rw [← push_count]
    exact h.count
  · rw [← push_count]
    exact h.entries_le
  · rw [← push_pending]
    exact h.bytes_le

theorem Finished.of_spill {e : FileEntry} {z : Bytes}
    (hfull : manifestBatchSize ≤ (w.push e).batchEntries.length)
    (hz : Z.encodeAll ((w.push e).batchEntries.flatMap encodeFileEntry) 3 = some z)
    (h : Finished Z H ((w.push e).spillBatch
      ⟨ofNat w.batchIndex, UInt32.ofNat (w.push e).batchEntries.length, z⟩) entries out) :
    Finished Z H w (e :: entries) out := by
  have hbytes : (w.batchEntries ++ e :: entries).flatMap encodeFileEntry =
      (w.push e).batchEntries.flatMap encodeFileEntry ++ entries.flatMap encodeFileEntry := by
    rw [← push_pending, flatMap_append]
  refine ⟨?_, ?_, ?_, ?_, ?_, ?_⟩
  · obtain ⟨tail, hout, htail⟩ := h.spill
    rw [push_batchEntries] at hfull
    rw [batchesFrom, if_pos hfull]
    refine ⟨_, ?_, .cons hz htail⟩
    rw [hout, ← append_assoc]
    rfl
  · rw [h.hash, hbytes, ← append_assoc]
    rfl
  · rw [h.total, map_cons, sum_cons, ← push_total]
    rfl
  · rw [← push_count]
    exact h.count
  · rw [← push_count]
    exact h.entries_le
  · rw [hbytes, length_append, ← add_assoc]
    exact h.bytes_le

theorem finished_of_ok (hcount : w.fileCount ≤ maxManifestEntries)
    (hbytes : w.manifestBytes ≤ maxManifestBytes)
    (h : (addEntries Z entries w >>= fun w => w.finish Z H) = .ok out) :
    Finished Z H w entries out := by
  induction entries generalizing w with
  | nil => exact finished_nil hcount hbytes h
  | cons e entries ih =>
    rw [addEntries] at h
    cases hadd : w.addEntry Z e with
    | error e =>
      rw [hadd] at h
      cases h
    | ok w' =>
      rw [hadd] at h
      unfold addEntry at hadd
      split_ifs at hadd with hlimit hfull
      · cases hflush : (w.push e).flushBatch Z with
        | error e =>
          rw [hflush] at hadd
          cases hadd
        | ok o =>
          rw [hflush] at hadd
          cases hadd
          rcases flushBatch_ok hflush with ⟨hnil, -⟩ | ⟨-, hle, z, hz, hw⟩
          · rw [hnil] at hfull
            exact absurd hfull (by decide)
          · rw [hw] at h
            exact .of_spill hfull hz (ih (not_le.1 hlimit) hle h)
      · cases hadd
        exact .of_push hfull (ih (not_le.1 hlimit) hbytes h)

end Velcrux.Manifest
