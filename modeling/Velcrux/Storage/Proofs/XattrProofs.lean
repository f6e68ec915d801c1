import Velcrux.Storage.Xattr
import Velcrux.Wire.Proofs.FieldProofs

/-!
# Attribute sidecars

What the encoder writes is read back. On other bytes the decoder trusts the count, for which it
reserves room, and every length, which it adds to an offset: it is safe exactly on the bytes whose
count and lengths fit.
-/

namespace Velcrux.Storage

open Wire Varint List

variable {buf : Bytes} {offset : ℕ} {text : String}

/-- No panic, and no room for more entries than there are bytes. An index computation that overflows
ends in a slice that panics. -/
def DecodesSafely (buf : Bytes) : Prop :=
  (∀ message, decodeXattrsCanonical buf ≠ .error (.panic message)) ∧
    ∀ count consumed, readVarint buf = .ok (count, consumed) → count ≤ buf.length

/-- The length at `offset`, if there is one, ends below `2 ^ 64`, and if the piece is there, what
comes after it is as `next` says. -/
def PieceFits (buf : Bytes) (offset : ℕ) (next : Bytes → ℕ → Prop) : Prop :=
  ∀ len consumed, readVarint (buf.drop offset) = .ok (len, consumed) →
    offset + consumed + len < 2 ^ 64 ∧ (offset + consumed + len ≤ buf.length →
      next ((buf.drop (offset + consumed)).take len) (offset + consumed + len))

def LengthsFit (buf : Bytes) : ℕ → ℕ → Prop
  | 0, _ => True
  | count + 1, offset => PieceFits buf offset fun name offset => (fromUtf8 name).isSome →
      PieceFits buf offset fun _ offset => LengthsFit buf count offset

def CountsFit (buf : Bytes) : Prop :=
  ∀ count consumed, readVarint buf = .ok (count, consumed) →
    count ≤ buf.length ∧ count * 48 ≤ isizeMax ∧ LengthsFit buf count consumed

theorem readVarint_bounds {len consumed : ℕ} (h : readVarint buf = .ok (len, consumed)) :
    len < 2 ^ 64 ∧ 0 < consumed ∧ consumed ≤ buf.length := by
  obtain ⟨init, last, post, rfl, -, -, rfl, rfl, -⟩ := decodeVarint_ok (readVarint_eq_ok_iff.mp h)
  exact ⟨Nat.mod_lt _ (by decide), Nat.succ_pos _, by simp⟩

theorem xattrPiece_encode (pre data post : Bytes) (text : String)
    (h : (pre ++ (encodeVarint data.length ++ (data ++ post))).length ≤ isizeMax) :
    xattrPiece (pre ++ (encodeVarint data.length ++ (data ++ post))) pre.length text =
      .ok (data, (pre ++ (encodeVarint data.length ++ data)).length) := by
  have hdrop : (pre ++ (encodeVarint data.length ++ (data ++ post))).drop
      (pre.length + varintLen data.length) = data ++ post := by
    rw [← drop_drop, drop_left, drop_left' (length_encodeVarint _)]
  simp only [length_append, length_encodeVarint, isizeMax] at h ⊢
  unfold xattrPiece
  rw [drop_left, readVarint_encodeVarint (by omega)]
  dsimp only
  rw [Nat.mod_eq_of_lt (by omega), if_neg (by simp; omega), if_neg (by omega), hdrop,
    Nat.add_sub_cancel_left, take_left, Nat.add_assoc]

def entriesField (l : List (String × Bytes)) : Bytes :=
  l.flatMap fun x => strField x.1 ++ (encodeVarint x.2.length ++ x.2)

theorem xattrLoop_encode (pre : Bytes) (l : List (String × Bytes))
    (h : (pre ++ entriesField l).length ≤ isizeMax) :
    xattrLoop (pre ++ entriesField l) l.length pre.length = .ok l := by
  induction l generalizing pre with
  | nil => rfl
  | cons x l ih =>
    have hname : pre ++ entriesField (x :: l) = pre ++ (encodeVarint (utf8 x.1).length ++
        (utf8 x.1 ++ (encodeVarint x.2.length ++ (x.2 ++ entriesField l)))) := by
      simp [entriesField, strField]
    have hval : pre ++ entriesField (x :: l) = pre ++ (encodeVarint (utf8 x.1).length ++ utf8 x.1) ++
        (encodeVarint x.2.length ++ (x.2 ++ entriesField l)) := by
      simp [hname]
    have hlater : pre ++ entriesField (x :: l) = pre ++ (encodeVarint (utf8 x.1).length ++
        utf8 x.1) ++ (encodeVarint x.2.length ++ x.2) ++ entriesField l := by
      simp [hname]
    have h1 := xattrPiece_encode _ _ _ "truncated xattr sidecar name" (hname ▸ h)
    have h2 := xattrPiece_encode _ _ _ "truncated xattr sidecar val" (hval ▸ h)
    have h3 := ih _ (hlater ▸ h)
    rw [← hname] at h1
    rw [← hval] at h2
    rw [← hlater] at h3
    simp only [length_cons, xattrLoop, h1, h2, h3, bind, Except.bind, fromUtf8_utf8, pure, Except.pure]

/-! ## Hostile bytes -/

theorem xattrPiece_bind {β : Type} {f : Bytes × ℕ → Except Failure β} {next : Bytes → ℕ → Prop}
    (hbuf : buf.length ≤ isizeMax)
    (hf : ∀ piece offset, (∀ m, f (piece, offset) ≠ .error (.panic m)) ↔ next piece offset) :
    (∀ m, (xattrPiece buf offset text >>= f) ≠ .error (.panic m)) ↔ PieceFits buf offset next := by
  unfold PieceFits xattrPiece
  cases hread : readVarint (buf.drop offset) with
  | error e => simp [bind, Except.bind]
  | ok r =>
    obtain ⟨len, consumed⟩ := r
    obtain ⟨hlen, hpos, hcons⟩ := readVarint_bounds hread
    rw [length_drop] at hcons
    simp only [isizeMax] at hbuf
    simp only [Except.ok.injEq, Prod.mk.injEq, and_imp, forall_apply_eq_imp_iff, forall_eq']
    by_cases hfit : offset + consumed + len < 2 ^ 64
    · rw [Nat.mod_eq_of_lt hfit]
      by_cases hin : buf.length < offset + consumed + len
      · rw [if_pos hin]
        simp only [bind, Except.bind, hfit, true_and]
        exact iff_of_true (by simp) fun h => absurd h (not_le.mpr hin)
      · rw [if_neg hin, if_neg (by omega), Nat.add_sub_cancel_left]
        simp only [bind, Except.bind, hf, hfit, not_lt.mp hin, true_and, forall_const]
    · -- the sum wraps to an index before the start of the slice
      have hwrap : (offset + consumed + len) % 2 ^ 64 = offset + consumed + len - 2 ^ 64 := by omega
      rw [if_neg (by omega), if_pos (by omega)]
      exact iff_of_false (fun h => h _ rfl) fun h => hfit h.1

theorem xattrLoop_safe_iff (hbuf : buf.length ≤ isizeMax) (count offset : ℕ) :
    (∀ m, xattrLoop buf count offset ≠ .error (.panic m)) ↔ LengthsFit buf count offset := by
  induction count generalizing offset with
  | zero => simp [xattrLoop, LengthsFit]
  | succ count ih =>
    refine xattrPiece_bind hbuf fun name offset => ?_
    dsimp only
    cases fromUtf8 name with
    | none => simp
    | some s =>
      simp only [Option.isSome_some, forall_const]
      refine xattrPiece_bind hbuf fun val offset => ?_
      rw [← ih]
      cases xattrLoop buf count offset <;> simp [bind, Except.bind, pure, Except.pure]

/-- **Attribute sidecars**: every list is read back, and the decoder is safe on a byte string exactly
if the count and the lengths it reaches fit. -/
theorem xattrs_iff (l : List (String × Bytes)) (buf : Bytes) (hl : l.length * 48 ≤ isizeMax)
    (hencoded : (encodeXattrsCanonical l).length ≤ isizeMax) (hbuf : buf.length ≤ isizeMax) :
    decodeXattrsCanonical (encodeXattrsCanonical l) = .ok l ∧
      (DecodesSafely buf ↔ CountsFit buf) := by
  constructor
  · have hcount : l.length < 2 ^ 64 := by simp only [isizeMax] at hl; omega
    rw [decodeXattrsCanonical, if_neg (by simp [encodeXattrsCanonical, encodeVarint_ne_nil])]
    rw [encodeXattrsCanonical, readVarint_encodeVarint hcount] at *
    dsimp only
    rw [if_neg (by omega), ← length_encodeVarint]
    exact xattrLoop_encode _ l hencoded
  unfold DecodesSafely CountsFit
  cases hread : readVarint buf with
  | error e =>
    by_cases hnil : buf = [] <;> simp [decodeXattrsCanonical, hnil, hread]
  | ok r =>
    obtain ⟨count, consumed⟩ := r
    have hne : buf ≠ [] := by
      rintro rfl
      cases hread
    simp only [decodeXattrsCanonical, if_neg hne, hread, Except.ok.injEq, Prod.mk.injEq, and_imp,
      forall_apply_eq_imp_iff, forall_eq', ← xattrLoop_safe_iff hbuf]
    by_cases hroom : isizeMax < count * 48
    · simp [hroom]
    · rw [if_neg hroom, and_comm]
      simp [not_lt.mp hroom]

theorem xattrs_tag : decodeXattrsCanonical (encodeXattrsCanonical [("user.tag", [7])]) =
    .ok [("user.tag", [7])] ∧ (DecodesSafely [0] ↔ CountsFit [0]) :=
  xattrs_iff _ _ (by decide) (by decide) (by decide)

/-- Eleven bytes announce one attribute with a name of `2 ^ 64 - 1` bytes. -/
theorem decodeXattrs_huge_name :
    decodeXattrsCanonical (1 :: (replicate 9 0xFF ++ [1])) =
      .error (.panic "slice index starts behind its end") := by decide

end Velcrux.Storage
