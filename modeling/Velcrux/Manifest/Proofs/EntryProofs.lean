import Velcrux.Manifest.Entry
import Velcrux.Wire.Proofs.FieldProofs

/-!
# Proofs: manifest entries are read back in canonical form

An entry that passes the checks of the decoder is read off its encoding, with its optional parts as
the flags say. The entry itself comes back if it has that form.
-/

namespace Velcrux.Manifest

open Decoding Varint LittleEndian List ChunkDesc
open Protocol (maxChunkSize)
open Storage (VPath isControl maxPathTotal)
open Wire

theorem decodes_varint64 (x : UInt64) : Decodes varint64 x (encodeVarint x.toNat) := by
  have h := (decodes_varint x.toNat_lt).map UInt64.ofNat
  rwa [UInt64.ofNat_toNat] at h

theorem decodes_onFlag {α : Type} {present : Prop} [Decidable present] {absent a : α} {d : PayloadDecoder α}
    {enc : Bytes} (hd : present → Decodes d a enc) :
    Decodes (onFlag present absent d) (if present then a else absent)
      (if present then enc else []) := by
  by_cases hp : present
  · simpa only [onFlag, hp, if_true] using hd hp
  · simpa only [onFlag, hp, if_false] using decodes_pure absent

theorem one_le_length_encodeVarint_append (n : ℕ) (post : Bytes) :
    1 ≤ (encodeVarint n ++ post).length := by
  have := varintLen_pos n
  rw [length_append, length_encodeVarint]
  omega

theorem decodes_limited {α : Type} {a : α} {n limit : ℕ} {enc : Bytes} {truncated : ProtocolError}
    {exceeds : ℕ → ProtocolError} {k : ℕ → PayloadDecoder α} (hlimit : limit < 2 ^ 64)
    (hn : n ≤ limit) (hd : Decodes (k n) a enc) :
    Decodes (do
      need 1 truncated
      let n ← varint
      refuse (limit < n) (exceeds n)
      k n) a (encodeVarint n ++ enc) := by
  refine .need (one_le_length_encodeVarint_append _ _) ?_
  refine (decodes_varint (by omega)).bind ?_
  exact (decodes_refuse (by omega) _).bind_nil hd

theorem decodes_readChunkHash (x : Hash) : Decodes readChunkHash (some x) x.bytes :=
  .checkedAdd x.length_eq.ge (.need x.length_eq.ge ((decodes_readHash x _).map some))

theorem decodes_chunkDesc (c : ChunkDesc) :
    Decodes decodeChunkDesc c.canonical (encodeChunkDesc c) := by
  unfold decodeChunkDesc encodeChunkDesc
  rw [append_assoc]
  refine ((decodes_varint64 c.flags.bits).map ChunkFlags.mk).bind ?_
  refine .need (one_le_length_encodeVarint_append _ _) ?_
  refine (decodes_varint64 c.length).bind ?_
  refine (decodes_onFlag fun _ => decodes_readChunkHash _).bind_last ?_
  exact decodes_pure _

theorem decodes_readChunks {chunks : List ChunkDesc} {runningSum : ℕ}
    (hlen : ∀ c ∈ chunks, c.length.toNat ≤ maxChunkSize)
    (hsum : runningSum + (chunks.map fun c => c.length.toNat).sum < 2 ^ 64) :
    Decodes (readChunks chunks.length runningSum)
      (chunks.map canonical, runningSum + (chunks.map fun c => c.length.toNat).sum)
      (chunks.flatMap encodeChunkDesc) := by
  induction chunks generalizing runningSum with
  | nil => exact decodes_pure _
  | cons c chunks ih =>
    simp only [map_cons, sum_cons, ← add_assoc] at hsum ⊢
    have hfirst := hlen c (mem_cons_self ..)
    have hlater := ih (fun d hd => hlen d (mem_cons_of_mem c hd)) hsum
    refine (decodes_chunkDesc c).bind ?_
    have hc : c.canonical.length.toNat = c.length.toNat := rfl
    refine (decodes_refuse (by omega) _).bind_nil ?_
    refine (decodes_refuse (by omega) _).bind_nil ?_
    exact hlater.bind_last (decodes_pure _)

theorem sum_chunks_lt {chunks : List ChunkDesc} (hcount : chunks.length ≤ maxWireChunks)
    (hlength : ∀ c ∈ chunks, c.length.toNat ≤ maxChunkSize) :
    0 + (chunks.map fun c => c.length.toNat).sum < 2 ^ 64 := by
  have hbound : ∀ n ∈ chunks.map fun c => c.length.toNat, n ≤ maxChunkSize := by
    intro n hn
    obtain ⟨c, hc, rfl⟩ := mem_map.1 hn
    exact hlength c hc
  have hsum := sum_le_card_nsmul _ maxChunkSize hbound
  rw [length_map, smul_eq_mul, maxChunkSize] at hsum
  rw [maxWireChunks] at hcount
  omega

/-! ## Path, targets and attributes -/

theorem decodes_readPath {path : VPath} (hlen : (utf8 path.str).length ≤ maxPathTotal)
    (hvalid : ∃ p, VPath.validate path.str = .ok p) :
    Decodes readPath path (strField path.str) := by
  obtain ⟨p, hp⟩ := hvalid
  have hpath : p = path := congrArg VPath.mk (Storage.validate_ok hp)
  refine decodes_limited (by decide) hlen ?_
  refine .checkedAdd le_rfl (.need le_rfl ?_)
  refine (decodes_readUtf8 _ _).bind_last (decodes_result ?_)
  rw [hp, ← hpath]
  rfl

theorem strField_ne_nil (s : String) : strField s ≠ [] := by
  have := one_le_length_encodeVarint_append (utf8 s).length (utf8 s)
  exact ne_nil_of_length_pos this

theorem length_utf8_le_length_strField (s : String) : (utf8 s).length ≤ (strField s).length := by
  simp [strField]

theorem decodes_readTarget (target : Option String) (overflow truncated notUtf8 : String) :
    Decodes (readTarget overflow truncated notUtf8) (some (target.getD "")) (targetField target) := by
  refine .of_lt fun hlt => ?_
  have hlen := length_utf8_le_length_strField (target.getD "")
  unfold targetField at hlt ⊢
  refine .atEnd (strField_ne_nil _) ?_
  exact (decodes_readStr (by omega) overflow truncated notUtf8).map some

theorem decodes_readXattrName {x : String × Bytes} (hlen : (utf8 x.1).length ≤ maxXattrNameLen)
    (htext : ¬ (x.1 = "" ∨ x.1.toList.any isControl)) :
    Decodes readXattrName x.1 (strField x.1) := by
  refine decodes_limited (by decide) hlen ?_
  refine .checkedAdd le_rfl (.need le_rfl ?_)
  refine (decodes_readUtf8 _ _).bind_last ?_
  exact (decodes_refuse htext _).bind_nil (decodes_pure _)

theorem decodes_readXattrValue {x : String × Bytes} (hx : XattrChecked x) :
    Decodes readXattrValue x.2 (encodeVarint x.2.length ++ x.2) := by
  refine decodes_limited (by decide) hx.value_len ?_
  exact .checkedAdd le_rfl (.need le_rfl (decodes_take rfl))

theorem decodes_readXattrs {xattrs : List (String × Bytes)} {total : ℕ}
    (hx : ∀ x ∈ xattrs, XattrChecked x)
    (htotal : total + (xattrs.map xattrSize).sum ≤ maxTotalXattrBytes) :
    Decodes (readXattrs xattrs.length total) xattrs (xattrs.flatMap xattrField) := by
  have hmax : maxTotalXattrBytes < 2 ^ 64 := by decide
  induction xattrs generalizing total with
  | nil => exact decodes_pure []
  | cons x xattrs ih =>
    have hfirst := hx x (mem_cons_self ..)
    rw [map_cons, sum_cons, ← add_assoc] at htotal
    have hlater := ih (fun y hy => hx y (mem_cons_of_mem x hy)) htotal
    have hsize : xattrSize (x.1, x.2) = xattrSize x := rfl
    rw [flatMap_cons, length_cons, xattrField, append_assoc]
    refine (decodes_readXattrName hfirst.name_len hfirst.name_text).bind ?_
    refine (decodes_readXattrValue hfirst).bind ?_
    refine (decodes_refuse (by omega) _).bind_nil ?_
    refine (decodes_refuse (by omega) _).bind_nil ?_
    exact hlater.bind_last (decodes_pure _)

theorem decodes_readXattrSection {e : FileEntry} (he : e.Checked) (hflag : e.flags.hasXattrs) :
    Decodes readXattrSection e.xattrs
      (encodeVarint e.xattrs.length ++ e.xattrs.flatMap xattrField) := by
  refine decodes_limited (by decide) (he.xattr_count hflag) ?_
  exact decodes_readXattrs (he.xattr_checked hflag) (by simpa using he.xattr_bytes hflag)

theorem decodes_fileEntry {e : FileEntry} (he : e.Checked) :
    Decodes decodeFileEntry e.canonical (encodeFileEntry e) := by
  unfold decodeFileEntry encodeFileEntry
  simp only [flatten_cons, flatten_nil, append_nil]
  refine ((decodes_varint64 e.flags.bits).map FileFlags.mk).bind ?_
  refine (decodes_readPath he.path_len he.path_valid).bind ?_
  have hmeta : 8 + 4 + 8 + 4 + 32 ≤ (u64Field e.size ++ (u32Field e.mode ++
      (u64Field e.mtimeSec.toUInt64 ++ (u32Field e.mtimeNsec ++ e.fileHash.bytes)))).length := by
    simp [u64Field, u32Field, e.fileHash.length_eq, chunkHashBytes]
  refine .checkedAdd (by simp only [length_append] at hmeta ⊢; omega) ?_
  refine .need (by simp only [length_append] at hmeta ⊢; omega) ?_
  refine (decodes_u64 e.size).bind ?_
  refine (decodes_u32 e.mode).bind ?_
  refine (decodes_u64 e.mtimeSec.toUInt64).bind ?_
  refine (decodes_u32 e.mtimeNsec).bind ?_
  refine (decodes_readHash e.fileHash _).bind ?_
  refine decodes_limited (by decide) he.chunk_count ?_
  refine (decodes_readChunks he.chunk_length (sum_chunks_lt he.chunk_count he.chunk_length)).bind ?_
  have hsize : ¬ (e.flags.fileType = .regular ∧ ¬ e.flags.isHardlink ∧
      0 + (e.chunks.map fun c => c.length.toNat).sum ≠ e.size.toNat) := by
    rintro ⟨hreg, hlink, hne⟩
    exact hne (by rw [zero_add, he.size_eq hreg hlink])
  refine (decodes_refuse hsize _).bind_nil ?_
  refine (decodes_onFlag fun _ => decodes_readTarget e.symlinkTarget _ _ _).bind ?_
  refine (decodes_onFlag fun _ => decodes_readTarget e.hardlinkTarget _ _ _).bind ?_
  refine (decodes_onFlag (decodes_readXattrSection he)).bind_last ?_
  exact decodes_pure _

theorem canonical_chunk_iff (c : ChunkDesc) :
    c.canonical = c ↔ (c.hash.isSome ↔ ¬ c.flags.isHole) := by
  obtain ⟨flags, length, hash⟩ := c
  cases hash <;> by_cases hhole : flags.isHole <;> simp [canonical, hhole]

theorem target_eq_iff {p : Prop} [Decidable p] (target : Option String) :
    (if p then some (target.getD "") else none) = target ↔ (target.isSome ↔ p) := by
  cases target <;> by_cases hp : p <;> simp [hp]

/-- The entry itself comes back if it has the form that its flags say. -/
theorem canonical_eq_iff (e : FileEntry) : e.canonical = e ↔ e.Canonical := by
  have hchunks : e.chunks.map canonical = e.chunks ↔
      ∀ c ∈ e.chunks, c.hash.isSome ↔ ¬ c.flags.isHole := by
    have hmap := map_inj_left (l := e.chunks) (f := canonical) (g := id)
    rw [map_id] at hmap
    exact hmap.trans (forall₂_congr fun c _ => canonical_chunk_iff c)
  have hxattrs : (if e.flags.hasXattrs then e.xattrs else []) = e.xattrs ↔
      (e.xattrs ≠ [] → e.flags.hasXattrs) := by
    by_cases hflag : e.flags.hasXattrs <;> simp [hflag, eq_comm]
  constructor
  · intro h
    have hfields := FileEntry.mk.inj h
    exact ⟨hchunks.1 hfields.2.2.2.2.2.2.2.1, (target_eq_iff _).1 hfields.2.2.2.2.2.2.2.2.1,
      (target_eq_iff _).1 hfields.2.2.2.2.2.2.2.2.2.1, hxattrs.1 hfields.2.2.2.2.2.2.2.2.2.2⟩
  · intro h
    have h1 := hchunks.2 h.chunk_hash
    have h2 := (target_eq_iff e.symlinkTarget).2 h.symlink
    have h3 := (target_eq_iff e.hardlinkTarget).2 h.hardlink
    have h4 := hxattrs.2 h.xattrs
    rw [FileEntry.canonical, h1, h2, h3, h4]

end Velcrux.Manifest
