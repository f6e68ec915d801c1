import Velcrux.Wire.Basic

/-!
# Fields come back

Every field codec reads what it wrote, wherever the field stands and whatever follows. What it accepts
is what it would have written, but for a varint that does not fit.
-/

namespace Velcrux.Wire

open Decoding Varint LittleEndian List

variable {enc bytes : Bytes} {α : Type} {a : α}

@[simp] theorem length_u16Field (x : UInt16) : (u16Field x).length = 2 := length_encodeLE 2 _

@[simp] theorem length_u32Field (x : UInt32) : (u32Field x).length = 4 := length_encodeLE 4 _

@[simp] theorem length_u64Field (x : UInt64) : (u64Field x).length = 8 := length_encodeLE 8 _

@[simp] theorem length_flagField (b : Bool) : (flagField b).length = 1 := rfl

@[simp] theorem length_zeros (n : ℕ) : (zeros n).length = n := length_replicate

@[simp] theorem length_hashField (h : Hash) : h.bytes.length = 32 := h.length_eq

@[simp] theorem length_idField (t : TransferId) : t.bytes.length = 16 := t.length_eq

theorem length_utf8_lt_strField (s : String) : (utf8 s).length < (strField s).length := by
  have := length_pos_iff.2 (encodeVarint_ne_nil (utf8 s).length)
  rw [strField, length_append]
  omega

theorem payload_ok {fields : List Bytes} (h : payload fields = .ok bytes) :
    bytes = fields.flatten ∧ fields.flatten.length ≤ isizeMax := by
  unfold payload at h
  split_ifs at h with hlen
  cases h
  exact ⟨rfl, by omega⟩

theorem payload_of_le {fields : List Bytes} (h : fields.flatten.length ≤ isizeMax) :
    payload fields = .ok fields.flatten :=
  if_neg (by omega)

theorem except_bind_ok {β : Type} {x : Except Failure β} {k : β → Except Failure α}
    (h : (x >>= k) = .ok a) : ∃ b, x = .ok b ∧ k b = .ok a := by
  cases x with
  | error e => cases h
  | ok b => exact ⟨b, rfl, h⟩

theorem checkField_bind_ok {bad : Prop} [Decidable bad] {detail : String}
    {k : Unit → Except Failure α} (h : (checkField bad detail >>= k) = .ok a) :
    ¬ bad ∧ k () = .ok a := by
  unfold checkField at h
  split_ifs at h with hbad
  · cases h
  · exact ⟨hbad, h⟩

def Allocates (x : Except Failure Bytes) : Prop := ∀ b, x = .ok b → b.length ≤ isizeMax

theorem allocates_payload (fields : List Bytes) : Allocates (payload fields) := by
  intro b h
  obtain ⟨rfl, hsize⟩ := payload_ok h
  exact hsize

theorem Allocates.check {k : Unit → Except Failure Bytes} (hk : Allocates (k ())) {bad : Prop}
    [Decidable bad] {detail : String} : Allocates (checkField bad detail >>= k) :=
  fun b h => hk b (checkField_bind_ok h).2

theorem readVarint_encodeVarint {n : ℕ} (h : n < 2 ^ 64) (post : Bytes) :
    readVarint (encodeVarint n ++ post) = .ok (n, varintLen n) := by
  simp [readVarint, decodeVarint_encodeVarint h]

theorem readVarint_eq_ok_iff {b : Bytes} {n k : ℕ} :
    readVarint b = .ok (n, k) ↔ decodeVarint b = .ok (n, k) := by
  cases h : decodeVarint b with
  | ok r => simp [readVarint, h]
  | error e => cases e <;> simp [readVarint, h]

/-- **A varint is accepted exactly in the form that is written**, unless the bytes spell a number
that does not fit and that loses its high bits. -/
theorem readVarint_iff_take_eq_encodeVarint (b : Bytes) :
    (∀ (v : UInt64) (n : ℕ), readVarint b = .ok (v.toNat, n) ↔
      n ≤ b.length ∧ b.take n = encodeVarint v.toNat ∧ n = varintLen v.toNat) ↔ ¬ Overlong b := by
  constructor
  · intro hall hlong
    obtain ⟨value, hvalue, -, hread, htake⟩ := decodeVarint_of_overlong hlong
    have hword : (UInt64.ofNat value).toNat = value := UInt64.toNat_ofNat_of_lt' hvalue
    have hiff := hall (UInt64.ofNat value) 10
    rw [hword, readVarint_eq_ok_iff] at hiff
    exact htake (hiff.1 hread).2.1
  · intro hlong v n
    rw [readVarint_eq_ok_iff]
    constructor
    · intro hread
      obtain ⟨-, rfl, post, rfl⟩ := eq_encodeVarint_of_decodeVarint hread hlong
      refine ⟨by simp, ?_, rfl⟩
      exact take_left' (length_encodeVarint _)
    · rintro ⟨-, htake, rfl⟩
      have hread := decodeVarint_encodeVarint v.toNat_lt (b.drop (varintLen v.toNat))
      rwa [← htake, take_append_drop, htake, length_encodeVarint] at hread

/-- The ten bytes of `2 ^ 65 - 1` read as `2 ^ 64 - 1`. -/
theorem readVarint_sixtyFiveBits :
    let b : Bytes := List.replicate 9 0xFF ++ [0x03]
    readVarint b = .ok (2 ^ 64 - 1, 10) ∧ b.take 10 ≠ encodeVarint (2 ^ 64 - 1) := by
  decide

theorem decodes_varint {n : ℕ} (h : n < 2 ^ 64) : Decodes varint n (encodeVarint n) := by
  intro pos post _
  simp [varint, readVarint_encodeVarint h, Except.map]

theorem fromUtf8_utf8 (s : String) : fromUtf8 (utf8 s) = some s := by
  have hbytes : (⟨(utf8 s).toArray⟩ : ByteArray) = s.toByteArray := by simp [utf8]
  rw [fromUtf8, hbytes, String.fromUTF8?, dif_pos s.isValidUTF8]
  rfl

theorem utf8_injective {s t : String} (h : utf8 s = utf8 t) : s = t :=
  Option.some.inj (by rw [← fromUtf8_utf8 s, h, fromUtf8_utf8])

theorem decodes_readUtf8 (s : String) (notUtf8 : String) :
    Decodes (readUtf8 (utf8 s).length notUtf8) s (utf8 s) := by
  exact (decodes_take rfl).bind_last (decodes_ofOption (fromUtf8_utf8 s) _)

theorem decodes_readStr {s : String} (hs : (utf8 s).length < 2 ^ 64)
    (overflow truncated notUtf8 : String) :
    Decodes (readStr overflow truncated notUtf8) s (strField s) :=
  (decodes_varint hs).bind (.checkedAdd le_rfl (.need le_rfl (decodes_readUtf8 s notUtf8)))

theorem decodes_readTransferId (t : TransferId) (bad : String) :
    Decodes (readTransferId bad) t t.bytes := by
  exact (decodes_take t.length_eq).bind_last (decodes_ofOption (TransferId.fromBytes_bytes t) _)

theorem decodes_readHash (x : Hash) (bad : String) : Decodes (readHash bad) x x.bytes := by
  exact (decodes_take x.length_eq).bind_last (decodes_ofOption (Hash.fromBytes_bytes x) _)

theorem decodes_readFlag (b : Bool) (bad : String) : Decodes (readFlag bad) b (flagField b) := by
  have hflag : flagOf (if b then 1 else 0) bad = .ok b := by cases b <;> rfl
  exact (decodes_u8 _).bind (decodes_result hflag)

theorem decodes_readStrBefore_bind {s : String} (hs : (utf8 s).length < 2 ^ 64) {tail : ℕ}
    {overflow tailOverflow truncated notUtf8 : String} {k : String → PayloadDecoder α}
    (htail : tail ≤ enc.length) (hk : Decodes (k s) a enc) :
    Decodes (readStrBefore tail overflow tailOverflow truncated notUtf8 >>= k) a
      (strField s ++ enc) := by
  have hlen : (utf8 s).length + tail ≤ (utf8 s ++ enc).length := by
    rw [length_append]
    omega
  simp only [readStrBefore, strField, bind_assoc, append_assoc]
  refine (decodes_varint hs).bind ?_
  refine .checkedAdd (by omega) (.checkedAdd hlen (.need hlen ?_))
  exact (decodes_readUtf8 s notUtf8).bind hk

theorem decodes_readIndices {indices : List UInt64} (hmono : indices.Pairwise (· < ·))
    {prev : Option UInt64} (hprev : ∀ p ∈ prev, ∀ i ∈ indices, p < i)
    (truncated nonMonotonic : String) :
    Decodes (readIndices truncated nonMonotonic indices.length prev) indices
      (indicesField indices) := by
  induction indices generalizing prev with
  | nil => exact decodes_pure []
  | cons i indices ih =>
    obtain ⟨hfirst, hmono⟩ := pairwise_cons.1 hmono
    have hfirst : ∀ p ∈ some i, ∀ j ∈ indices, p < j := by
      rintro p ⟨⟩ j hj
      exact hfirst j hj
    have hlater := ih hmono hfirst
    have hpos : 1 ≤ (encodeVarint i.toNat ++ indicesField indices).length := by
      have := length_pos_iff.2 (encodeVarint_ne_nil i.toNat)
      rw [length_append]
      omega
    have hup : ¬ ∃ p ∈ prev, UInt64.ofNat i.toNat ≤ p := by
      rintro ⟨p, hp, hle⟩
      rw [UInt64.ofNat_toNat] at hle
      exact absurd (hprev p hp i (mem_cons_self ..)) (UInt64.not_lt.2 hle)
    refine .need hpos ((decodes_varint i.toNat_lt).bind ?_)
    refine (decodes_refuse hup _).bind_nil ?_
    rw [UInt64.ofNat_toNat]
    exact hlater.bind_last (decodes_pure _)

variable {c c' : Cursor}

/-- A varint that is accepted is the encoder's, unless it is too long and stands for a large
number. -/
theorem passed_varint {n : ℕ} (h : varint c = .ok (n, c')) :
    n < 2 ^ 64 ∧ (¬ Overlong c.rest ∨ n < 2 ^ 63 → Passed c (encodeVarint n) c') := by
  cases hread : readVarint c.rest with
  | error e =>
    rw [varint, hread] at h
    cases h
  | ok r =>
    obtain ⟨v, len⟩ := r
    rw [varint, hread] at h
    obtain ⟨rfl, rfl⟩ := Prod.mk.inj (Except.ok.inj h)
    rw [readVarint_eq_ok_iff] at hread
    by_cases hlong : Overlong c.rest
    · obtain ⟨w, hlt, hlarge, hw, -⟩ := decodeVarint_of_overlong hlong
      obtain ⟨rfl, -⟩ := Prod.mk.inj (Except.ok.inj (hread.symm.trans hw))
      exact ⟨hlt, fun hform => absurd hlarge (not_le.2 (hform.resolve_left (not_not_intro hlong)))⟩
    · obtain ⟨hlt, rfl, post, hrest⟩ := eq_encodeVarint_of_decodeVarint hread hlong
      refine ⟨hlt, fun _ => ⟨?_, by rw [length_encodeVarint]⟩⟩
      rw [hrest, drop_left' (length_encodeVarint v)]

theorem utf8_of_fromUtf8 {bs : Bytes} {s : String} (h : fromUtf8 bs = some s) : utf8 s = bs := by
  unfold fromUtf8 String.fromUTF8? at h
  split_ifs at h
  obtain rfl := Option.some.inj h
  rfl

theorem passed_readUtf8 {n : ℕ} {notUtf8 s : String} (hn : n ≤ c.rest.length)
    (h : readUtf8 n notUtf8 c = .ok (s, c')) : Passed c (utf8 s) c' ∧ (utf8 s).length = n := by
  obtain ⟨bs, c1, htake, h⟩ := bind_eq_ok_iff.1 h
  obtain ⟨hs, rfl⟩ := ofOption_eq_ok_iff.1 h
  rw [utf8_of_fromUtf8 hs]
  exact passed_take hn htake

theorem passed_readHash {bad : String} {x : Hash} (hn : 32 ≤ c.rest.length)
    (h : readHash bad c = .ok (x, c')) : Passed c x.bytes c' := by
  obtain ⟨bs, c1, htake, h⟩ := bind_eq_ok_iff.1 h
  obtain ⟨hx, rfl⟩ := ofOption_eq_ok_iff.1 h
  obtain ⟨_, hx⟩ := Option.dite_none_right_eq_some.1 hx
  obtain rfl := Option.some.inj hx
  exact (passed_take hn htake).1

theorem passed_readStr {overflow truncated notUtf8 s : String}
    (h : readStr overflow truncated notUtf8 c = .ok (s, c')) (hform : ¬ Overlong c.rest) :
    Passed c (strField s) c' := by
  obtain ⟨n, c1, hlen, h⟩ := bind_eq_ok_iff.1 h
  obtain ⟨hn, h⟩ := need_bind_eq_ok_iff.1 (checkedAdd_bind_eq_ok_iff.1 h).2
  obtain ⟨htext, rfl⟩ := passed_readUtf8 (not_lt.1 hn) h
  exact ((passed_varint hlen).2 (.inl hform)).append htext

end Velcrux.Wire
