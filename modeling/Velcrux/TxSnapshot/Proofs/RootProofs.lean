import Velcrux.TxSnapshot.Catalog
import Velcrux.Wire.Proofs.FieldProofs

/-!
# What the roots bind

Both roots hash their fields one after the other, with nothing to say where a path or a kind ends.
Two lists with the same bytes agree exactly if the bytes are cut at the same places.
-/

namespace Velcrux.TxSnapshot

open LittleEndian Wire List StagedFileOp

namespace StagedFileOp

def hashed (op : StagedFileOp) : String × ℕ × Hash × FileOpKind × Option ℕ :=
  (op.path, op.size, op.hash, op.kind, op.expectedBaseVersion)

def Fits (op : StagedFileOp) : Prop := op.size < 2 ^ 64 ∧ op.expectedBaseVersion.getD 0 < 2 ^ 64

/-- Where path and kind end, and whether the last field is there at all. -/
def cut (op : StagedFileOp) : ℕ × ℕ × Bool :=
  ((utf8 op.path).length, op.kind.digest.length, op.expectedBaseVersion.isSome)

end StagedFileOp

namespace FileRevision

def hashed (x : String × FileRevision) : String × ℕ × Hash × ℕ :=
  (x.1, x.2.size, x.2.hash, x.2.revisionId)

def Fits (x : String × FileRevision) : Prop := x.2.size < 2 ^ 64 ∧ x.2.revisionId < 2 ^ 64

def cut (x : String × FileRevision) : ℕ := (utf8 x.1).length

end FileRevision

/-- Equal roots mean the same operations and the same files, in every hashed field. -/
def RootsBind (H : HashFn) (ops ops' : List StagedFileOp)
    (files files' : SortedMap String FileRevision) : Prop :=
  (computeStagingMerkleRoot H ops = computeStagingMerkleRoot H ops' →
    ∀ x, x ∈ ops.map hashed ↔ x ∈ ops'.map hashed) ∧
  (computeSnapshotMerkleRoot H files = computeSnapshotMerkleRoot H files' →
    ∀ x, x ∈ files.entries.map FileRevision.hashed ↔ x ∈ files'.entries.map FileRevision.hashed)

/-- The same bytes are cut into fields at different places. -/
def Shifted {α γ : Type} (fields : α → Bytes) (cut : α → γ) (l l' : List α) : Prop :=
  l.flatMap fields = l'.flatMap fields ∧ l.map cut ≠ l'.map cut

section Records

variable {α γ δ : Type} {fields : α → Bytes} {cut : α → γ} {view : α → String × δ}
variable {Fits : α → Prop} {l l' : List α}

variable (hcut : ∀ {a b r r'}, Fits a → Fits b → cut a = cut b → fields a ++ r = fields b ++ r' →
  view a = view b ∧ r = r')

include hcut in
theorem views_eq_of_cuts_eq (hl : ∀ a ∈ l ++ l', Fits a) (hcuts : l.map cut = l'.map cut)
    (h : l.flatMap fields = l'.flatMap fields) : l.map view = l'.map view := by
  induction l generalizing l' with
  | nil => rw [map_eq_nil_iff.mp hcuts.symm]
  | cons a l ih =>
    obtain ⟨b, l', rfl, hb, hrest⟩ := map_eq_cons_iff.mp hcuts.symm
    rw [flatMap_cons, flatMap_cons] at h
    obtain ⟨hview, h⟩ := hcut (hl a (by simp)) (hl b (by simp)) hb.symm h
    rw [map_cons, map_cons, hview, ih (fun x hx => hl x (by simp at hx ⊢; tauto)) hrest.symm h]

theorem eq_of_mem_iff {l l' : List (String × δ)} (hl : l.Pairwise fun x y => x.1 < y.1)
    (hl' : l'.Pairwise fun x y => x.1 < y.1) (h : ∀ x, x ∈ l ↔ x ∈ l') : l = l' := by
  have hnodup : ∀ {m : List (String × δ)}, m.Pairwise (fun x y => x.1 < y.1) → m.Nodup :=
    fun hm => hm.imp fun hlt heq => (heq ▸ hlt).false
  exact ((perm_ext_iff_of_nodup (hnodup hl) (hnodup hl')).mpr h).eq_of_pairwise
    (fun a b _ _ hlt hgt => absurd hlt hgt.asymm) hl hl'

include hcut in
/-- Equal digests mean the same records exactly if none is cut elsewhere. -/
theorem binds_iff_not_shifted {H : HashFn} {tag : Bytes} (cutOf : String × δ → γ)
    (hof : ∀ a, cut a = cutOf (view a)) (hl : ∀ a ∈ l ++ l', Fits a)
    (hsorted : (l.map view).Pairwise fun x y => x.1 < y.1)
    (hsorted' : (l'.map view).Pairwise fun x y => x.1 < y.1)
    (hH : Set.InjOn H {tag ++ l.flatMap fields, tag ++ l'.flatMap fields}) :
    (H (tag ++ l.flatMap fields) = H (tag ++ l'.flatMap fields) →
      ∀ x, x ∈ l.map view ↔ x ∈ l'.map view) ↔ ¬ Shifted fields cut l l' := by
  constructor
  · rintro h ⟨hbytes, hne⟩
    have hviews := eq_of_mem_iff hsorted hsorted' (h (by rw [hbytes]))
    refine hne ?_
    simpa only [map_map, Function.comp_def, ← hof] using congrArg (map cutOf) hviews
  · intro h hroot x
    have hbytes := append_cancel_left (hH (by simp) (by simp) hroot)
    have hcuts : l.map cut = l'.map cut := by_contra fun hne => h ⟨hbytes, hne⟩
    rw [views_eq_of_cuts_eq hcut hl hcuts hbytes]

end Records

/-! ## Operations and files -/

theorem encodeLE_injective {n m : ℕ} (hn : n < 2 ^ 64) (hm : m < 2 ^ 64)
    (h : encodeLE 8 n = encodeLE 8 m) : n = m := by
  have hdecode := congrArg decodeLE h
  rwa [decodeLE_encodeLE_of_lt hn, decodeLE_encodeLE_of_lt hm] at hdecode

theorem eq_of_digest_eq {k k' : FileOpKind} (h : k.digest = k'.digest) : k = k' := by
  have hwrite : utf8 "WRITE" = [87, 82, 73, 84, 69] := by decide
  have hdelete : utf8 "DELETE" = [68, 69, 76, 69, 84, 69] := by decide
  have hrename : utf8 "RENAME" = [82, 69, 78, 65, 77, 69] := by decide
  cases k <;> cases k' <;> simp [FileOpKind.digest, hwrite, hdelete, hrename] at h ⊢
  exact utf8_injective h

theorem StagedFileOp.hashed_eq_of_cut_eq {a b : StagedFileOp} {r r' : Bytes} (ha : a.Fits)
    (hb : b.Fits) (hcut : a.cut = b.cut) (h : a.digestFields ++ r = b.digestFields ++ r') :
    a.hashed = b.hashed ∧ r = r' := by
  obtain ⟨hpath, hkind, hsome⟩ := by simpa only [cut, Prod.mk.injEq] using hcut
  simp only [StagedFileOp.digestFields, append_assoc] at h
  obtain ⟨hpath, h⟩ := append_inj h hpath
  obtain ⟨hsize, h⟩ := append_inj h (by simp)
  obtain ⟨hhash, h⟩ := Hash.inj_of_append h
  obtain ⟨hkind, h⟩ := append_inj h hkind
  obtain ⟨hbase, h⟩ := append_inj h (by simp)
  have hversion : a.expectedBaseVersion = b.expectedBaseVersion := by
    have := encodeLE_injective ha.2 hb.2 hbase
    cases hx : a.expectedBaseVersion <;> cases hy : b.expectedBaseVersion <;> simp_all
  rw [hashed, utf8_injective hpath, encodeLE_injective ha.1 hb.1 hsize, hhash,
    eq_of_digest_eq hkind, hversion]
  exact ⟨rfl, h⟩

theorem FileRevision.hashed_eq_of_cut_eq {a b : String × FileRevision} {r r' : Bytes} (ha : Fits a)
    (hb : Fits b) (hcut : cut a = cut b) (h : digestFields a ++ r = digestFields b ++ r') :
    hashed a = hashed b ∧ r = r' := by
  simp only [digestFields, append_assoc] at h
  obtain ⟨hpath, h⟩ := append_inj h hcut
  obtain ⟨hsize, h⟩ := append_inj h (by simp)
  obtain ⟨hhash, h⟩ := Hash.inj_of_append h
  obtain ⟨hrevision, h⟩ := append_inj h (by simp)
  rw [hashed, utf8_injective hpath, encodeLE_injective ha.1 hb.1 hsize, hhash,
    encodeLE_injective ha.2 hb.2 hrevision]
  exact ⟨rfl, h⟩

theorem pairwise_hashed_sorted {ops : List StagedFileOp} (h : (ops.map path).Nodup) :
    ((sorted ops).map hashed).Pairwise fun x y => x.1 < y.1 := by
  have hperm := perm_insertionSort (fun a b : StagedFileOp => a.path ≤ b.path) ops
  have hle := pairwise_insertionSort (fun a b : StagedFileOp => a.path ≤ b.path) ops
  have hne := pairwise_map.mp (((hperm.map path).nodup_iff).mpr h)
  exact pairwise_map.mpr ((hle.and hne).imp fun h => lt_of_le_of_ne h.1 h.2)

/-- **What the roots bind.** For operations with distinct paths and a hash without a collision
between the two digests, the roots bind their contents exactly if the same bytes are not cut into
fields at different places. -/
theorem rootsBind_iff (H : HashFn) (ops ops' : List StagedFileOp)
    (files files' : SortedMap String FileRevision) (hpaths : (ops.map path).Nodup)
    (hpaths' : (ops'.map path).Nodup) (hops : ∀ op ∈ ops ++ ops', op.Fits)
    (hfiles : ∀ x ∈ files.entries ++ files'.entries, FileRevision.Fits x)
    (hH : Set.InjOn H {digest ops, digest ops'})
    (hH' : Set.InjOn H {FileRevision.digest files, FileRevision.digest files'}) :
    RootsBind H ops ops' files files' ↔
      ¬ Shifted digestFields cut (sorted ops)
        (sorted ops') ∧
      ¬ Shifted FileRevision.digestFields FileRevision.cut files.entries files'.entries := by
  have hmem : ∀ {ops : List StagedFileOp} {x}, x ∈ ops.map hashed ↔
      x ∈ (sorted ops).map hashed :=
    ((perm_insertionSort _ _).map _).mem_iff.symm
  have hstaging := binds_iff_not_shifted hashed_eq_of_cut_eq
    (fun x => ((utf8 x.1).length, x.2.2.2.1.digest.length, x.2.2.2.2.isSome)) (fun _ => rfl)
    (fun op hop => hops op (by simpa [sorted] using hop))
    (pairwise_hashed_sorted hpaths) (pairwise_hashed_sorted hpaths') hH
  have hsnapshot := binds_iff_not_shifted FileRevision.hashed_eq_of_cut_eq
    (fun x => (utf8 x.1).length) (fun _ => rfl) hfiles (pairwise_map.mpr files.sorted)
    (pairwise_map.mpr files'.sorted) hH'
  refine and_congr (.trans (imp_congr_right fun _ => forall_congr' fun x => ?_) hstaging) hsnapshot
  exact iff_congr hmem hmem

def writeOf (path : String) (expectedBaseVersion : Option ℕ) : StagedFileOp :=
  ⟨path, .write, 0, .zero, "", expectedBaseVersion⟩

def revisionOf (path : String) (revisionId : ℕ) : FileRevision :=
  ⟨revisionId, path, 0, .zero, .new, "", 0, "", false, ""⟩

def oneFile : SortedMap String FileRevision := SortedMap.empty.insert "a" (revisionOf "a" 1)

def twoFiles : SortedMap String FileRevision :=
  (oneFile.insert "a" (revisionOf "a" 2)).insert "b" (revisionOf "b" 1)

theorem lengthHash_ne {a b : Bytes} (h : UInt8.ofNat a.length ≠ UInt8.ofNat b.length) :
    lengthHash a ≠ lengthHash b := fun heq =>
  h (List.cons.inj (congrArg Hash.bytes heq)).1

theorem injOn_lengthHash {a b : Bytes} (h : lengthHash a ≠ lengthHash b) :
    Set.InjOn lengthHash {a, b} :=
  Set.injOn_pair.mpr fun heq => absurd heq h

/-- Two lists and two maps of different contents; their roots differ too. -/
theorem rootsBind_writeOf :
    RootsBind lengthHash [writeOf "a" none] [writeOf "b" (some 1), writeOf "a" (some 3)]
        oneFile twoFiles ∧
      computeSnapshotMerkleRoot lengthHash oneFile ≠ computeSnapshotMerkleRoot lengthHash twoFiles := by
  have hops : lengthHash (digest [writeOf "a" none]) ≠
      lengthHash (digest [writeOf "b" (some 1), writeOf "a" (some 3)]) :=
    lengthHash_ne (by decide +kernel)
  have hfiles : lengthHash (FileRevision.digest oneFile) ≠ lengthHash (FileRevision.digest twoFiles) :=
    lengthHash_ne (by decide +kernel)
  refine ⟨(rootsBind_iff _ _ _ _ _ (by decide) (by decide) (by simp [StagedFileOp.Fits, writeOf])
    ?_ (injOn_lengthHash hops) (injOn_lengthHash hfiles)).mpr ⟨?_, ?_⟩, hfiles⟩
  · have hentries : oneFile.entries ++ twoFiles.entries =
        [("a", revisionOf "a" 1), ("a", revisionOf "a" 2), ("b", revisionOf "b" 1)] := rfl
    simp [hentries, FileRevision.Fits, revisionOf]
  · exact fun h => absurd (congrArg length h.1) (by decide)
  · exact fun h => absurd (congrArg length h.1) (by decide)

/-- An operation that expects version 0 has the root of one that expects nothing, by any hash. -/
theorem not_rootsBind_writeOf : ∃ ops ops', ∀ H, ¬ RootsBind H ops ops' .empty .empty := by
  refine ⟨[writeOf "a" none], [writeOf "a" (some 0)], fun H h => ?_⟩
  have hmem := (h.1 rfl (writeOf "a" none).hashed).mp (by simp)
  simp [hashed, writeOf] at hmem

end Velcrux.TxSnapshot
