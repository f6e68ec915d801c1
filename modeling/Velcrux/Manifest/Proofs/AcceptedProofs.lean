import Velcrux.Manifest.Proofs.EntryProofs

/-!
# Proofs: what the decoder of entries accepts

The bytes that the decoder has passed over are the encoding of what it has read, but for varints
without a limit, which can be too long, and a link target missing at the end. Neither is found in an
encoding.
-/

namespace Velcrux.Manifest

open Decoding Varint LittleEndian List FileEntry FileFlags Except Prod
open Protocol (maxChunkSize)
open Storage (VPath isControl maxPathTotal)
open Wire

variable {c c' : Cursor}

theorem passed_varint64 {x : UInt64} (h : varint64 c = .ok (x, c'))
    (hform : ¬ Overlong c.rest ∨ x.toNat < 2 ^ 63) : Passed c (encodeVarint x.toNat) c' := by
  obtain ⟨n, hn, rfl⟩ := map_eq_ok_iff.1 h
  obtain ⟨hlt, hpassed⟩ := passed_varint hn
  rw [UInt64.toNat_ofNat_of_lt' hlt] at hform ⊢
  exact hpassed hform

variable {present : Prop}

theorem passed_onFlag {α : Type} [Decidable present] {absent a : α}
    {d : PayloadDecoder α} {enc : Bytes} (h : onFlag present absent d c = .ok (a, c'))
    (hd : present → d c = .ok (a, c') → Passed c enc c') :
    Passed c (if present then enc else []) c' := by
  by_cases hp : present
  · rw [onFlag, if_pos hp] at h
    rw [if_pos hp]
    exact hd hp h
  · rw [onFlag, if_neg hp] at h
    rw [if_neg hp]
    obtain ⟨rfl, rfl⟩ := mk.inj (ok.inj h)
    exact .nil c

theorem limited_eq_ok {α : Type} {limit : ℕ} {truncated : ProtocolError} {exceeds : ℕ → ProtocolError}
    {k : ℕ → PayloadDecoder α} {x : α × Cursor} (hlimit : limit < 2 ^ 63)
    (h : (do
      need 1 truncated
      let n ← varint
      refuse (limit < n) (exceeds n)
      k n) c = .ok x) :
    ∃ n c1, Passed c (encodeVarint n) c1 ∧ n ≤ limit ∧ k n c1 = .ok x := by
  obtain ⟨n, c1, hn, h⟩ := bind_eq_ok_iff.1 (need_bind_eq_ok_iff.1 h).2
  obtain ⟨hmax, h⟩ := refuse_bind_eq_ok_iff.1 h
  exact ⟨n, c1, (passed_varint hn).2 (.inr (by omega)), not_lt.1 hmax, h⟩

theorem passed_readPath {path : VPath} (h : readPath c = .ok (path, c')) :
    Passed c (strField path.str) c' ∧ (utf8 path.str).length ≤ maxPathTotal ∧
      ∃ p, VPath.validate path.str = .ok p := by
  obtain ⟨n, c1, hlen, hmax, h⟩ := limited_eq_ok (by decide) h
  obtain ⟨hn, h⟩ := need_bind_eq_ok_iff.1 (checkedAdd_bind_eq_ok_iff.1 h).2
  obtain ⟨s, c2, hs, h⟩ := bind_eq_ok_iff.1 h
  obtain ⟨hpath, rfl⟩ := result_eq_ok_iff.1 h
  obtain ⟨htext, rfl⟩ := passed_readUtf8 (not_lt.1 hn) hs
  have hvalid : VPath.validate s = .ok path := by
    cases hv : VPath.validate s with
    | error e =>
      rw [hv] at hpath
      cases hpath
    | ok p =>
      rw [hv] at hpath
      exact congrArg ok (ok.inj hpath)
  obtain rfl : path.str = s := Storage.validate_ok hvalid
  exact ⟨hlen.append htext, hmax, path, hvalid⟩

theorem passed_readChunkHash {hash : Option Hash} (h : readChunkHash c = .ok (hash, c')) :
    Passed c (hash.getD Hash.zero).bytes c' := by
  obtain ⟨hn, h⟩ := need_bind_eq_ok_iff.1 (checkedAdd_bind_eq_ok_iff.1 h).2
  obtain ⟨x, hx, rfl⟩ := map_eq_ok_iff.1 h
  exact passed_readHash (not_lt.1 hn) hx

theorem passed_chunkDesc {chunk : ChunkDesc} (h : decodeChunkDesc c = .ok (chunk, c'))
    (hform : ¬ Overlong c.rest) (hmax : chunk.length.toNat ≤ maxChunkSize) :
    Passed c (encodeChunkDesc chunk) c' := by
  have hlimit : maxChunkSize < 2 ^ 63 := by decide
  obtain ⟨flags, c1, hflags, h⟩ := bind_eq_ok_iff.1 h
  obtain ⟨length, c2, hlength, h⟩ := bind_eq_ok_iff.1 (need_bind_eq_ok_iff.1 h).2
  obtain ⟨hash, c3, hhash, h⟩ := bind_eq_ok_iff.1 h
  obtain ⟨rfl, rfl⟩ := mk.inj (ok.inj h)
  obtain ⟨bits, hbits, rfl⟩ := map_eq_ok_iff.1 hflags
  exact ((passed_varint64 hbits (.inl hform)).append
    (passed_varint64 hlength (.inr (hmax.trans_lt hlimit)))).append
    (passed_onFlag hhash fun _ => passed_readChunkHash)

theorem passed_readChunks {count sum total : ℕ} {chunks : List ChunkDesc}
    (h : readChunks count sum c = .ok ((chunks, total), c'))
    (hform : ∀ (front : List ChunkDesc) (c1 : Cursor), front.length < count →
      Passed c (front.flatMap encodeChunkDesc) c1 → ¬ Overlong c1.rest) :
    Passed c (chunks.flatMap encodeChunkDesc) c' ∧ chunks.length = count ∧
      (∀ chunk ∈ chunks, chunk.length.toNat ≤ maxChunkSize) ∧
      total = sum + (chunks.map fun chunk => chunk.length.toNat).sum := by
  induction count generalizing sum chunks c with
  | zero =>
    obtain ⟨hpair, rfl⟩ := mk.inj (ok.inj h)
    obtain ⟨rfl, rfl⟩ := mk.inj hpair
    exact ⟨.nil c, rfl, by simp, rfl⟩
  | succ count ih =>
    obtain ⟨chunk, c1, hchunk, h⟩ := bind_eq_ok_iff.1 h
    obtain ⟨hmax, h⟩ := refuse_bind_eq_ok_iff.1 h
    obtain ⟨later, c2, hlater, h⟩ := bind_eq_ok_iff.1 (refuse_bind_eq_ok_iff.1 h).2
    obtain ⟨hpair, rfl⟩ := mk.inj (ok.inj h)
    obtain ⟨rfl, rfl⟩ := mk.inj hpair
    have hfirst := passed_chunkDesc hchunk (hform [] c (by simp) (.nil c)) (not_lt.1 hmax)
    obtain ⟨hrest, hcount, hlengths, hsum⟩ := ih hlater fun front c3 hlt hfront =>
      hform (chunk :: front) c3 (by simpa using hlt) (hfirst.append hfront)
    refine ⟨hfirst.append hrest, by simp [hcount], ?_, ?_⟩
    · rw [forall_mem_cons]
      exact ⟨not_lt.1 hmax, hlengths⟩
    · rw [hsum, map_cons, sum_cons, add_assoc]

theorem passed_readTarget {overflow truncated notUtf8 : String} {target : Option String}
    (h : readTarget overflow truncated notUtf8 c = .ok (target, c'))
    (hform : ¬ (c.rest = [] ∨ Overlong c.rest)) : Passed c (targetField target) c' := by
  rw [not_or] at hform
  obtain ⟨empty, c1, hend, h⟩ := bind_eq_ok_iff.1 h
  obtain ⟨rfl, rfl⟩ := mk.inj (ok.inj hend)
  rw [isEmpty_eq_false_iff.2 hform.1] at h
  obtain ⟨s, hs, rfl⟩ := map_eq_ok_iff.1 h
  exact passed_readStr hs hform.2

theorem passed_readXattrName {name : String} (h : readXattrName c = .ok (name, c')) :
    Passed c (strField name) c' ∧ (utf8 name).length ≤ maxXattrNameLen ∧
      ¬ (name = "" ∨ name.toList.any isControl) := by
  obtain ⟨n, c1, hlen, hmax, h⟩ := limited_eq_ok (by decide) h
  obtain ⟨hn, h⟩ := need_bind_eq_ok_iff.1 (checkedAdd_bind_eq_ok_iff.1 h).2
  obtain ⟨s, c2, hs, h⟩ := bind_eq_ok_iff.1 h
  obtain ⟨hname, h⟩ := refuse_bind_eq_ok_iff.1 h
  obtain ⟨rfl, rfl⟩ := mk.inj (ok.inj h)
  obtain ⟨htext, rfl⟩ := passed_readUtf8 (not_lt.1 hn) hs
  exact ⟨hlen.append htext, hmax, hname⟩

theorem passed_readXattrValue {value : Bytes} (h : readXattrValue c = .ok (value, c')) :
    Passed c (encodeVarint value.length ++ value) c' ∧ value.length ≤ maxXattrValueLen := by
  obtain ⟨n, c1, hlen, hmax, h⟩ := limited_eq_ok (by decide) h
  obtain ⟨hn, h⟩ := need_bind_eq_ok_iff.1 (checkedAdd_bind_eq_ok_iff.1 h).2
  obtain ⟨hvalue, rfl⟩ := passed_take (not_lt.1 hn) h
  exact ⟨hlen.append hvalue, hmax⟩

variable {xattrs : List (String × Bytes)}

theorem passed_readXattrs {count total : ℕ}
    (h : readXattrs count total c = .ok (xattrs, c')) (htotal : total ≤ maxTotalXattrBytes) :
    Passed c (xattrs.flatMap xattrField) c' ∧ xattrs.length = count ∧
      (∀ x ∈ xattrs, XattrChecked x) ∧ total + (xattrs.map xattrSize).sum ≤ maxTotalXattrBytes := by
  induction count generalizing total xattrs c with
  | zero =>
    obtain ⟨rfl, rfl⟩ := mk.inj (ok.inj h)
    exact ⟨.nil c, rfl, by simp, by simpa using htotal⟩
  | succ count ih =>
    obtain ⟨name, c1, hname, h⟩ := bind_eq_ok_iff.1 h
    obtain ⟨value, c2, hvalue, h⟩ := bind_eq_ok_iff.1 h
    obtain ⟨hbytes, h⟩ := refuse_bind_eq_ok_iff.1 (refuse_bind_eq_ok_iff.1 h).2
    obtain ⟨later, c3, hlater, h⟩ := bind_eq_ok_iff.1 h
    obtain ⟨rfl, rfl⟩ := mk.inj (ok.inj h)
    obtain ⟨hfirst, hnameLen, hnameText⟩ := passed_readXattrName hname
    obtain ⟨hsecond, hvalueLen⟩ := passed_readXattrValue hvalue
    obtain ⟨hrest, hcount, hchecked, hsum⟩ := ih hlater (not_lt.1 hbytes)
    refine ⟨(hfirst.append hsecond).append hrest, by simp [hcount], ?_, ?_⟩
    · rw [forall_mem_cons]
      exact ⟨⟨hnameLen, hnameText, hvalueLen⟩, hchecked⟩
    · rwa [map_cons, sum_cons, ← add_assoc]

theorem passed_readXattrSection (h : readXattrSection c = .ok (xattrs, c')) :
    Passed c (encodeVarint xattrs.length ++ xattrs.flatMap xattrField) c' ∧
      xattrs.length ≤ maxXattrCount ∧ (∀ x ∈ xattrs, XattrChecked x) ∧
      (xattrs.map xattrSize).sum ≤ maxTotalXattrBytes := by
  obtain ⟨n, c1, hlen, hmax, h⟩ := limited_eq_ok (by decide) h
  obtain ⟨hxattrs, rfl, hchecked, hsum⟩ := passed_readXattrs h (Nat.zero_le _)
  exact ⟨hlen.append hxattrs, hmax, hchecked, by simpa using hsum⟩

theorem encodeFileEntry_eq (e : FileEntry) :
    encodeFileEntry e =
      e.preamble e.chunks.length ++ (e.chunks.flatMap encodeChunkDesc ++ e.trailer) := by
  simp [encodeFileEntry, preamble, trailer]

variable {e : FileEntry}

theorem passed_fileEntry (h : decodeFileEntry c = .ok (e, c'))
    (hform : ¬ Irregular c.rest) : Passed c (encodeFileEntry e) c' ∧ e.Checked := by
  obtain ⟨flags, c1, hflags, h⟩ := bind_eq_ok_iff.1 h
  obtain ⟨path, c2, hpath, h⟩ := bind_eq_ok_iff.1 h
  obtain ⟨hmeta, h⟩ := need_bind_eq_ok_iff.1 (checkedAdd_bind_eq_ok_iff.1 h).2
  obtain ⟨size, c3, hsize, h⟩ := bind_eq_ok_iff.1 h
  obtain ⟨mode, c4, hmode, h⟩ := bind_eq_ok_iff.1 h
  obtain ⟨mtimeSec, c5, hmtimeSec, h⟩ := bind_eq_ok_iff.1 h
  obtain ⟨mtimeNsec, c6, hmtimeNsec, h⟩ := bind_eq_ok_iff.1 h
  obtain ⟨fileHash, c7, hfileHash, h⟩ := bind_eq_ok_iff.1 h
  obtain ⟨count, c8, hcount, hmax, h⟩ := limited_eq_ok (by decide) h
  obtain ⟨⟨chunks, runningSum⟩, c9, hchunks, h⟩ := bind_eq_ok_iff.1 h
  obtain ⟨hsum, h⟩ := refuse_bind_eq_ok_iff.1 h
  obtain ⟨symlinkTarget, d1, hsymlink, h⟩ := bind_eq_ok_iff.1 h
  obtain ⟨hardlinkTarget, d2, hhardlink, h⟩ := bind_eq_ok_iff.1 h
  obtain ⟨xattrs, d3, hxattrs, h⟩ := bind_eq_ok_iff.1 h
  obtain ⟨rfl, rfl⟩ := mk.inj (ok.inj h)
  obtain ⟨bits, hbits, rfl⟩ := map_eq_ok_iff.1 hflags
  have hplace : ∀ {e : FileEntry} {front : Bytes} {c1 : Cursor}, e.Before front →
      Passed c front c1 → ¬ (c1.rest = [] ∨ Overlong c1.rest) :=
    fun hbefore hpassed hbad => hform ⟨_, _, _, hbefore, hpassed.rest_eq, hbad⟩
  generalize hentry : mk ⟨bits⟩ path size mode mtimeSec.toInt64 mtimeNsec fileHash chunks
    symlinkTarget hardlinkTarget xattrs = e
  -- up to the chunks every field but the flags has a fixed width or a limit
  have hflags := passed_varint64 hbits (.inl fun hlong =>
    hplace (FileEntry.Before.flags (e := e)) (.nil c) (.inr hlong))
  obtain ⟨hpath, hpathLen, hpathValid⟩ := passed_readPath hpath
  obtain ⟨hsize, hleft⟩ := passed_u64 (by omega) hsize
  obtain ⟨hmode, hleft⟩ := passed_u32 (by omega) hmode
  obtain ⟨hmtimeSec, hleft⟩ := passed_u64 (by omega) hmtimeSec
  obtain ⟨hmtimeNsec, hleft⟩ := passed_u32 (by omega) hmtimeNsec
  have hfileHash := passed_readHash (by omega) hfileHash
  have hpreamble : Passed c (e.preamble count) c8 := by
    have h := hflags.append (hpath.append (hsize.append (hmode.append (hmtimeSec.append
      (hmtimeNsec.append (hfileHash.append hcount))))))
    simpa [← hentry, preamble, u64Field, u32Field] using h
  obtain ⟨hdescs, rfl, hlengths, rfl⟩ := passed_readChunks hchunks fun front c1 hfront hpassed => by
    have hword := UInt64.toNat_ofNat_of_lt' (hmax.trans_lt (show maxWireChunks < 2 ^ 64 by decide))
    have hbefore : FileEntry.Before { e with chunks := front }
        (e.preamble count ++ front.flatMap encodeChunkDesc) := by
      rw [← hword] at hfront ⊢
      exact .chunk hfront
    exact fun hlong => hplace hbefore (hpreamble.append hpassed) (.inr hlong)
  subst hentry
  have hsymlink := passed_onFlag hsymlink fun hflag h =>
    passed_readTarget h (hplace (.symlink hflag) (hpreamble.append hdescs))
  have hhardlink := passed_onFlag hhardlink fun hflag h =>
    passed_readTarget h (hplace (.hardlink hflag) (hpreamble.append (hdescs.append hsymlink)))
  have hsection := passed_onFlag hxattrs fun _ h => (passed_readXattrSection h).1
  have hchecks : hasXattrs ⟨bits⟩ → _ := fun hflag => by
    rw [onFlag, if_pos hflag] at hxattrs
    exact (passed_readXattrSection hxattrs).2
  constructor
  · rw [encodeFileEntry_eq]
    exact hpreamble.append (hdescs.append (hsymlink.append (hhardlink.append hsection)))
  · refine ⟨hpathLen, hpathValid, hmax, hlengths, fun hreg hlink => ?_,
      fun hflag => (hchecks hflag).1, fun hflag => (hchecks hflag).2.1,
      fun hflag => (hchecks hflag).2.2⟩
    by_contra hne
    exact hsum ⟨hreg, hlink, by rwa [zero_add]⟩

/-! ## An entry is determined by its encoding -/

theorem length_le_length_flatMap {α : Type} {f : α → Bytes} (hf : ∀ x, f x ≠ []) (xs : List α) :
    xs.length ≤ (xs.flatMap f).length := by
  induction xs with
  | nil => simp
  | cons x xs ih =>
    have := length_pos_of_ne_nil (hf x)
    rw [flatMap_cons, length_cons, length_append]
    omega

theorem decodes_strField (s : String) : Decodes (readStr "" "" "") s (strField s) :=
  .of_lt fun hlt => decodes_readStr ((length_utf8_lt_strField s).trans hlt) "" "" ""

variable {e e' : FileEntry}

theorem preamble_inj {n n' : ℕ} {post post' : Bytes} (hn : n < 2 ^ 64)
    (hn' : n' < 2 ^ 64) (h : e.preamble n ++ post = e'.preamble n' ++ post')
    (hlt : (e.preamble n ++ post).length < 2 ^ 64) :
    (e.flags = e'.flags ∧ e.path = e'.path ∧ e.size = e'.size ∧ e.mode = e'.mode ∧
      e.mtimeSec = e'.mtimeSec ∧ e.mtimeNsec = e'.mtimeNsec ∧ e.fileHash = e'.fileHash) ∧
      n = n' ∧ post = post' ∧ post.length < 2 ^ 64 := by
  simp only [preamble, flatten_cons, append_assoc] at h hlt
  obtain ⟨hflags, h, hlt⟩ := (decodes_varint64 _).inj (decodes_varint64 _) h hlt
  obtain ⟨hpath, h, hlt⟩ := (decodes_strField _).inj (decodes_strField _) h hlt
  obtain ⟨hsize, h, hlt⟩ := (decodes_u64 (ε := ProtocolError) _).inj (decodes_u64 _) h hlt
  obtain ⟨hmode, h, hlt⟩ := (decodes_u32 (ε := ProtocolError) _).inj (decodes_u32 _) h hlt
  obtain ⟨hsec, h, hlt⟩ := (decodes_u64 (ε := ProtocolError) _).inj (decodes_u64 _) h hlt
  obtain ⟨hnsec, h, hlt⟩ := (decodes_u32 (ε := ProtocolError) _).inj (decodes_u32 _) h hlt
  obtain ⟨hhash, h, hlt⟩ := (decodes_readHash _ "").inj (decodes_readHash _ "") h hlt
  obtain ⟨hcount, h, hlt⟩ := (decodes_varint hn).inj (decodes_varint hn') h hlt
  refine ⟨⟨?_, ?_, hsize, hmode, ?_, hnsec, hhash⟩, hcount, h, hlt⟩
  · exact congrArg FileFlags.mk hflags
  · exact congrArg VPath.mk hpath
  · rw [← Int64.toInt64_toUInt64 e.mtimeSec, hsec, Int64.toInt64_toUInt64]

theorem encodeChunkDesc_ne_nil (chunk : ChunkDesc) : encodeChunkDesc chunk ≠ [] := by
  simp [encodeChunkDesc, encodeVarint_ne_nil]

theorem xattrField_ne_nil (x : String × Bytes) : xattrField x ≠ [] := by
  simp [xattrField, strField_ne_nil]

theorem length_chunks_lt {front post : Bytes} {chunks : List ChunkDesc}
    (hlt : (front ++ (chunks.flatMap encodeChunkDesc ++ post)).length < 2 ^ 64) :
    chunks.length < 2 ^ 64 := by
  have hle := length_le_length_flatMap encodeChunkDesc_ne_nil chunks
  simp only [length_append] at hlt
  omega

theorem decodes_onTarget [Decidable present] (target : Option String) :
    Decodes (onFlag present none (readTarget "" "" "")) (if present then some (target.getD "") else none)
      (if present then targetField target else []) :=
  decodes_onFlag fun _ => decodes_readTarget target "" "" ""

theorem decodes_onXattrs [Decidable present] (xattrs : List (String × Bytes)) :
    Decodes (onFlag present [] (varint >>= many (do
        let name ← readStr "" "" ""
        let n ← varint
        let value ← take n
        return (name, value))))
      (if present then xattrs else [])
      (if present then encodeVarint xattrs.length ++ xattrs.flatMap xattrField else []) := by
  refine decodes_onFlag fun _ => .of_lt fun hlt => ?_
  have hle := length_le_length_flatMap xattrField_ne_nil xattrs
  rw [length_append] at hlt
  refine (decodes_varint (by omega)).bind (decodes_many fun x _ => .of_lt fun hx => ?_)
  simp only [xattrField, length_append] at hx
  refine (decodes_strField x.1).bind ((decodes_varint (by omega)).bind ?_)
  exact (decodes_take rfl).bind_last (decodes_pure _)

theorem preamble_chunks_inj {n : ℕ} {post rest : Bytes} (hn : n < 2 ^ 64)
    (hle : e'.chunks.length ≤ n)
    (h : e'.preamble n ++ (e'.chunks.flatMap encodeChunkDesc ++ post) = encodeFileEntry e ++ rest)
    (hlt : (encodeFileEntry e ++ rest).length < 2 ^ 64) :
    (e'.flags = e.flags ∧ e'.path = e.path ∧ e'.size = e.size ∧ e'.mode = e.mode ∧
      e'.mtimeSec = e.mtimeSec ∧ e'.mtimeNsec = e.mtimeNsec ∧ e'.fileHash = e.fileHash) ∧
      n = e.chunks.length ∧
      e'.chunks.map ChunkDesc.canonical = (e.chunks.map ChunkDesc.canonical).take e'.chunks.length ∧
      post = (e.chunks.drop e'.chunks.length).flatMap encodeChunkDesc ++ (e.trailer ++ rest) ∧
      post.length < 2 ^ 64 := by
  rw [encodeFileEntry_eq, append_assoc, append_assoc] at h hlt
  obtain ⟨hfields, rfl, hchunks, hlt⟩ := preamble_inj hn (length_chunks_lt hlt) h (h ▸ hlt)
  exact ⟨hfields, rfl, Decodes.flatMap_inj decodes_chunkDesc hle hchunks hlt⟩

theorem exists_varint_of_target {target : Option String} {more : Bytes}
    (hlt : (targetField target ++ more).length < 2 ^ 64) :
    ∃ n < 2 ^ 64, ∃ later, targetField target ++ more = encodeVarint n ++ later := by
  have hutf8 := length_utf8_lt_strField (target.getD "")
  rw [targetField, length_append] at hlt
  exact ⟨_, by omega, _, append_assoc ..⟩

theorem exists_varint_of_before {front post rest : Bytes}
    (hbefore : e'.Before front) (h : front ++ post = encodeFileEntry e ++ rest)
    (hlt : (encodeFileEntry e ++ rest).length < 2 ^ 64) :
    ∃ n < 2 ^ 64, ∃ more, post = encodeVarint n ++ more := by
  cases hbefore with
  | flags =>
    rw [encodeFileEntry, flatten_cons, append_assoc] at h
    exact ⟨_, e.flags.bits.toNat_lt, _, h⟩
  | @chunk n hless =>
    rw [append_assoc] at h
    obtain ⟨-, hn, -, hpost, -⟩ := preamble_chunks_inj n.toNat_lt hless.le h hlt
    obtain ⟨chunk, later, hdrop⟩ := exists_cons_of_length_pos (l := e.chunks.drop e'.chunks.length)
      (by rw [length_drop]; omega)
    rw [hdrop, flatMap_cons, encodeChunkDesc] at hpost
    simp only [append_assoc] at hpost
    exact ⟨_, chunk.flags.bits.toNat_lt, _, hpost⟩
  | symlink hflag =>
    rw [append_assoc] at h
    obtain ⟨hfields, hn, -, hpost, hlt⟩ := preamble_chunks_inj (length_chunks_lt (h ▸ hlt)) le_rfl h hlt
    rw [hn, drop_length, trailer, ← hfields.1, if_pos hflag, append_assoc] at hpost
    rw [hpost] at hlt ⊢
    exact exists_varint_of_target hlt
  | hardlink hflag =>
    rw [append_assoc, append_assoc] at h
    obtain ⟨hfields, hn, -, hpost, hlt⟩ := preamble_chunks_inj (length_chunks_lt (h ▸ hlt)) le_rfl h hlt
    rw [hn, drop_length, trailer, ← hfields.1, if_pos hflag, append_assoc,
      append_assoc] at hpost
    obtain ⟨-, hpost, hlt⟩ := (decodes_onTarget e'.symlinkTarget).inj
      (decodes_onTarget e.symlinkTarget) hpost hlt
    rw [hpost] at hlt ⊢
    exact exists_varint_of_target hlt

theorem not_irregular_encodeFileEntry {rest : Bytes}
    (hlt : (encodeFileEntry e ++ rest).length < 2 ^ 64) : ¬ Irregular (encodeFileEntry e ++ rest) := by
  rintro ⟨e', front, post, hbefore, hsplit, hbad⟩
  obtain ⟨n, hn, more, rfl⟩ := exists_varint_of_before hbefore hsplit.symm hlt
  rcases hbad with hnil | hlong
  · exact encodeVarint_ne_nil n (append_eq_nil_iff.1 hnil).1
  · exact not_overlong_encodeVarint hn more hlong

theorem canonical_inj {post rest : Bytes}
    (h : encodeFileEntry e' ++ post = encodeFileEntry e ++ rest)
    (hlt : (encodeFileEntry e ++ rest).length < 2 ^ 64) : e'.canonical = e.canonical := by
  rw [encodeFileEntry_eq e', append_assoc, append_assoc] at h
  obtain ⟨⟨hflags, hpath, hsize, hmode, hsec, hnsec, hhash⟩, hn, hchunks, hpost, hlt⟩ :=
    preamble_chunks_inj (length_chunks_lt (h ▸ hlt)) le_rfl h hlt
  rw [hn, ← length_map ChunkDesc.canonical, take_length] at hchunks
  rw [hn, drop_length, trailer, trailer, hflags] at hpost
  simp only [append_assoc] at hpost
  obtain ⟨hsymlink, hpost, hlt⟩ := (decodes_onTarget e'.symlinkTarget).inj
    (decodes_onTarget e.symlinkTarget) hpost (by simpa [trailer, hflags] using hlt)
  obtain ⟨hhardlink, hpost, hlt⟩ := (decodes_onTarget e'.hardlinkTarget).inj
    (decodes_onTarget e.hardlinkTarget) hpost hlt
  obtain ⟨hxattrs, -⟩ := (decodes_onXattrs e'.xattrs).inj (decodes_onXattrs e.xattrs) hpost hlt
  rw [canonical, canonical, hchunks, hflags, hsymlink, hhardlink, hxattrs, hpath,
    hsize, hmode, hsec, hnsec, hhash]

theorem FileEntry.Checked.of_canonical_eq (h : e'.canonical = e.canonical)
    (hchecked : e'.Checked) : e.Checked := by
  have hflags : e'.flags = e.flags := (congrArg flags h :)
  have hpath : e'.path = e.path := (congrArg path h :)
  have hsize : e'.size = e.size := (congrArg size h :)
  have hlengths : (e'.chunks.map fun c => c.length.toNat) = e.chunks.map fun c => c.length.toNat := by
    have hmap := congrArg (fun e => e.chunks.map fun c => c.length.toNat) h
    simpa [canonical, ChunkDesc.canonical, Function.comp_def] using hmap
  have hxattrs : e.flags.hasXattrs → e'.xattrs = e.xattrs := fun hflag => by
    have hif := congrArg xattrs h
    simpa [canonical, hflags, hflag] using hif
  obtain ⟨hpathLen, hpathValid, hcount, hlength, hsum, hxcount, hxs, hxbytes⟩ := hchecked
  rw [← length_map fun c : ChunkDesc => c.length.toNat, hlengths, length_map] at hcount
  rw [← forall_mem_map (P := (· ≤ maxChunkSize)), hlengths, forall_mem_map] at hlength
  rw [hflags, hlengths, hsize] at hsum
  rw [hflags] at hxcount hxs hxbytes
  exact ⟨hpath ▸ hpathLen, hpath ▸ hpathValid, hcount, hlength, hsum,
    fun hflag => hxattrs hflag ▸ hxcount hflag, fun hflag => hxattrs hflag ▸ hxs hflag,
    fun hflag => hxattrs hflag ▸ hxbytes hflag⟩

theorem checked_of_decodeFileEntry {pos : ℕ} {post : Bytes} {x : FileEntry × Cursor}
    (hlt : (encodeFileEntry e ++ post).length < 2 ^ 64)
    (h : decodeFileEntry ⟨pos, encodeFileEntry e ++ post⟩ = .ok x) : e.Checked := by
  obtain ⟨hpassed, hchecked⟩ := passed_fileEntry h (not_irregular_encodeFileEntry hlt)
  exact .of_canonical_eq (canonical_inj hpassed.rest_eq.symm hlt) hchecked

/-! ## Entries in a stream -/

structure FileEntry.WithinLimits (e : FileEntry) : Prop where
  path_valid : ∃ p, VPath.validate e.path.str = .ok p
  chunk_count : e.chunks.length ≤ maxWireChunks
  chunk_length : ∀ c ∈ e.chunks, c.length.toNat ≤ maxChunkSize
  size_eq : e.flags.fileType = .regular → ¬ e.flags.isHardlink →
    (e.chunks.map fun c => c.length.toNat).sum = e.size.toNat
  xattr_count : e.xattrs.length ≤ maxXattrCount
  xattr_len : ∀ x ∈ e.xattrs, (utf8 x.1).length ≤ maxXattrNameLen ∧ x.2.length ≤ maxXattrValueLen
  xattr_bytes : (e.xattrs.map xattrSize).sum ≤ maxTotalXattrBytes

theorem length_utf8_le_of_validate {raw : String} {p : VPath} (h : VPath.validate raw = .ok p) :
    (utf8 raw).length ≤ maxPathTotal := by
  have hbytes : (utf8 raw).length = raw.utf8ByteSize := rfl
  unfold VPath.validate at h
  split_ifs at h
  omega

/-- **An entry comes back from a stream, with the bytes after it untouched**, if its attributes have
the names that the decoder takes. -/
theorem decodeFileEntry_append_iff (h : e.WithinLimits) (hform : e.Canonical)
    (halloc : (encodeFileEntry e).length ≤ isizeMax) :
    (∀ rest, decodeFileEntry ⟨0, encodeFileEntry e ++ rest⟩ =
      .ok (e, ⟨(encodeFileEntry e).length, rest⟩)) ↔
      ∀ x ∈ e.xattrs, ¬ (x.1 = "" ∨ x.1.toList.any isControl) := by
  have hmax : isizeMax < 2 ^ 64 := by decide
  constructor
  · intro hdecode x hx
    have hchecked := checked_of_decodeFileEntry (by rw [append_nil]; omega) (hdecode [])
    have hflag := hform.xattrs (ne_nil_of_mem hx)
    exact (hchecked.xattr_checked hflag x hx).name_text
  · intro hnames rest
    obtain ⟨p, hp⟩ := h.path_valid
    have hchecked : e.Checked :=
      ⟨length_utf8_le_of_validate hp, ⟨p, hp⟩, h.chunk_count, h.chunk_length, h.size_eq,
        fun _ => h.xattr_count,
        fun _ x hx => ⟨(h.xattr_len x hx).1, hnames x hx, (h.xattr_len x hx).2⟩,
        fun _ => h.xattr_bytes⟩
    have hdecode := decodes_fileEntry hchecked 0 rest (by omega)
    rwa [(canonical_eq_iff e).2 hform, zero_add] at hdecode

def attributedEntry (name : String) : FileEntry where
  flags := ⟨0x08⟩
  path := ⟨"f"⟩
  size := 0
  mode := 0o644
  mtimeSec := 0
  mtimeNsec := 0
  fileHash := Hash.zero
  chunks := []
  symlinkTarget := none
  hardlinkTarget := none
  xattrs := [(name, [0x68, 0x69])]

theorem withinLimits_attributedEntry {name : String} (h : (utf8 name).length ≤ maxXattrNameLen) :
    (attributedEntry name).WithinLimits where
  path_valid := ⟨⟨"f"⟩, show VPath.validate "f" = .ok ⟨"f"⟩ by decide⟩
  chunk_count := Nat.zero_le _
  chunk_length := by simp [attributedEntry]
  size_eq := fun _ _ => rfl
  xattr_count := show 1 ≤ maxXattrCount by decide
  xattr_len := by
    simp only [attributedEntry, forall_mem_singleton]
    exact ⟨h, by decide⟩
  xattr_bytes := by
    exact (Nat.add_le_add_right h 2).trans (by decide)

theorem canonical_attributedEntry (name : String) : (attributedEntry name).Canonical where
  chunk_hash := by simp [attributedEntry]
  symlink := iff_of_false (by simp [attributedEntry])
    (show fileType ⟨0x08⟩ ≠ .symlink by decide)
  hardlink := iff_of_false (by simp [attributedEntry])
    (show ¬ isHardlink ⟨0x08⟩ by decide)
  xattrs := fun _ => show hasXattrs ⟨0x08⟩ by decide

theorem decodeFileEntry_namedAttribute :
    let e := attributedEntry "user.comment"
    decodeFileEntry ⟨0, encodeFileEntry e ++ [0x2a]⟩ =
      .ok (e, ⟨(encodeFileEntry e).length, [0x2a]⟩) := by
  refine (decodeFileEntry_append_iff (withinLimits_attributedEntry (by decide))
    (canonical_attributedEntry _) (by decide)).2 ?_ [0x2a]
  decide

/-- An attribute without a name keeps the limits, and the entry is refused. -/
theorem decodeFileEntry_namelessAttribute :
    let e := attributedEntry ""
    e.WithinLimits ∧ e.Canonical ∧ (encodeFileEntry e).length ≤ isizeMax ∧
      ∀ r, decodeFileEntry ⟨0, encodeFileEntry e⟩ ≠ .ok r := by
  refine ⟨withinLimits_attributedEntry (by decide), canonical_attributedEntry _, by decide,
    fun r hr => ?_⟩
  have hchecked : (attributedEntry "").Checked := checked_of_decodeFileEntry (by decide) hr
  have hflag := (canonical_attributedEntry "").xattrs (by simp [attributedEntry])
  exact (hchecked.xattr_checked hflag _ (.head _)).name_text (.inl rfl)

/-- **An accepted entry is the encoding of what is read**, unless a varint of flags does not fit into
64 bits or the buffer ends before a link target. -/
theorem encodeFileEntry_eq_take_iff {b : Bytes} {e : FileEntry} {c : Cursor} (hlen : b.length < 2 ^ 64)
    (h : decodeFileEntry ⟨0, b⟩ = .ok (e, c)) :
    encodeFileEntry e = b.take c.pos ↔ ¬ Irregular b := by
  constructor
  · intro htake
    have hb := take_append_drop c.pos b
    rw [← htake] at hb
    rw [← hb] at hlen ⊢
    exact not_irregular_encodeFileEntry hlen
  · intro hform
    obtain ⟨⟨hrest, hpos⟩, -⟩ := passed_fileEntry h hform
    rw [zero_add] at hpos
    rw [hpos, show b = encodeFileEntry e ++ c.rest from hrest, take_left]

def highFlagEntry : FileEntry :=
  { attributedEntry "" with flags := ⟨0x8000000000000000⟩, xattrs := [] }

theorem decodeFileEntry_highFlagEntry :
    decodeFileEntry ⟨0, encodeFileEntry highFlagEntry⟩ = .ok (highFlagEntry, ⟨69, []⟩) := by
  have hvalid : VPath.validate "f" = .ok ⟨"f"⟩ := by decide
  have hplain : ¬ highFlagEntry.flags.hasXattrs := by decide
  have hchecked : highFlagEntry.Checked :=
    ⟨length_utf8_le_of_validate hvalid, ⟨_, hvalid⟩, Nat.zero_le _,
      by simp [highFlagEntry, attributedEntry], fun _ _ => rfl, (absurd · hplain), (absurd · hplain), (absurd · hplain)⟩
  exact decodes_fileEntry hchecked 0 [] (by decide)

theorem not_irregular_highFlagEntry : ¬ Irregular (encodeFileEntry highFlagEntry) :=
  (encodeFileEntry_eq_take_iff (by decide) decodeFileEntry_highFlagEntry).1 (by decide)

/-- With 3 for the tenth byte of the flags the bytes are accepted as the same entry. -/
theorem decodeFileEntry_tenthByte :
    let b : Bytes := List.replicate 9 0x80 ++ 0x03 :: (encodeFileEntry highFlagEntry).drop 10
    decodeFileEntry ⟨0, b⟩ = .ok (highFlagEntry, ⟨69, []⟩) ∧
      encodeFileEntry highFlagEntry ≠ b.take 69 ∧
      decodeFileEntry ⟨0, encodeFileEntry highFlagEntry⟩ = .ok (highFlagEntry, ⟨69, []⟩) := by
  intro b
  have hcongr : ∀ {c1 c2 : Cursor}, varint64 c1 = varint64 c2 →
      decodeFileEntry c1 = decodeFileEntry c2 := by
    intro c1 c2 h
    simp only [decodeFileEntry, bind, StateT.bind, Functor.map, StateT.map, h]
  have hflags : varint64 ⟨0, b⟩ = varint64 ⟨0, encodeFileEntry highFlagEntry⟩ := rfl
  refine ⟨?_, by decide, decodeFileEntry_highFlagEntry⟩
  rw [hcongr hflags, decodeFileEntry_highFlagEntry]

end Velcrux.Manifest
