import Mathlib

/-!
# LEB128 numbers

A `u64` as bytes of seven bits each, lowest first, every byte but the last with its high bit set. Of
the forms that fit into 64 bits the decoder accepts the shortest only.
-/

namespace Varint

open List UInt8

variable {value shift : ℕ}

inductive Fault where
  | empty
  | overflow
  | nonCanonical
deriving DecidableEq

def varintLen (value : ℕ) : ℕ :=
  if value ≤ 0x7F then 1
  else if value ≤ 0x3FFF then 2
  else if value ≤ 0x1FFFFF then 3
  else if value ≤ 0xFFFFFFF then 4
  else if value ≤ 0x7FFFFFFFF then 5
  else if value ≤ 0x3FFFFFFFFFF then 6
  else if value ≤ 0x1FFFFFFFFFFFF then 7
  else if value ≤ 0xFFFFFFFFFFFFFF then 8
  else if value ≤ 0x7FFFFFFFFFFFFFFF then 9
  else 10

def encodeLoop : ℕ → ℕ → List UInt8
  | 0, value => [ofNat value]
  | rounds + 1, value =>
    if value < 0x80 then [ofNat value]
    else ofNat (value % 0x80 + 0x80) :: encodeLoop rounds (value / 0x80)

def encodeVarint (value : ℕ) : List UInt8 := encodeLoop 9 value

def decodeLoop (value shift i : ℕ) : List UInt8 → Except Fault (ℕ × ℕ)
  | [] => .error .overflow
  | b :: bs =>
    if 10 < i + 1 then .error .overflow
    else if shift < 64 then
      let value := value ||| ((b.toNat % 0x80) <<< shift) % 2 ^ 64
      if b.toNat < 0x80 then .ok (value, i + 1) else decodeLoop value (shift + 7) (i + 1) bs
    else if b.toNat % 0x80 ≠ 0 then .error .overflow
    else if b.toNat < 0x80 then .ok (value, i + 1)
    else decodeLoop value (shift + 7) (i + 1) bs

def decodeVarint (buf : List UInt8) : Except Fault (ℕ × ℕ) :=
  if buf = [] then .error .empty
  else
    match decodeLoop 0 0 0 buf with
    | .error e => .error e
    | .ok (value, i) => if varintLen value ≠ i then .error .nonCanonical else .ok (value, i)

theorem toNat_ofNat_of_lt {n : ℕ} (h : n < 256) : (ofNat n).toNat = n := by
  simp [Nat.mod_eq_of_lt h]

theorem encodeLoop_of_lt (h : value < 0x80) (rounds : ℕ) :
    encodeLoop rounds value = [ofNat value] := by
  cases rounds <;> simp [encodeLoop, h]

theorem length_encodeLoop {rounds k : ℕ} (hk : k ≤ rounds) (hlo : 128 ^ k ≤ value ∨ k = 0)
    (hhi : value < 128 ^ (k + 1) ∨ k = rounds) : (encodeLoop rounds value).length = k + 1 := by
  induction rounds generalizing k value with
  | zero =>
    obtain rfl : k = 0 := by omega
    rfl
  | succ rounds ih =>
    cases k with
    | zero =>
      have hhi : value < 128 := by simpa using hhi
      rw [encodeLoop_of_lt hhi, length_singleton]
    | succ k =>
      have hlo : 128 ^ k * 128 ≤ value := by simpa [pow_succ] using hlo
      have hpos : 1 ≤ 128 ^ k := Nat.one_le_pow _ _ (by decide)
      have hhi : value / 128 < 128 ^ (k + 1) ∨ k = rounds := by
        rcases hhi with hhi | hhi
        · exact .inl ((Nat.div_lt_iff_lt_mul (by decide)).2 (by simpa [pow_succ] using hhi))
        · exact .inr (by omega)
      have hrest := ih (by omega) (.inl ((Nat.le_div_iff_mul_le (by decide)).2 hlo)) hhi
      simp [encodeLoop, show ¬ value < 128 by omega, hrest]

/-- The number of bytes is the number of digits to the base 128, ten at most. -/
theorem varintLen_spec (value : ℕ) : ∃ k ≤ 9, varintLen value = k + 1 ∧
    (128 ^ k ≤ value ∨ k = 0) ∧ (value < 128 ^ (k + 1) ∨ k = 9) := by
  unfold varintLen
  split_ifs
  exacts [⟨0, by omega⟩, ⟨1, by omega⟩, ⟨2, by omega⟩, ⟨3, by omega⟩, ⟨4, by omega⟩,
    ⟨5, by omega⟩, ⟨6, by omega⟩, ⟨7, by omega⟩, ⟨8, by omega⟩, ⟨9, by omega⟩]

@[simp] theorem length_encodeVarint (value : ℕ) :
    (encodeVarint value).length = varintLen value := by
  obtain ⟨k, hk, hlen, hlo, hhi⟩ := varintLen_spec value
  rw [hlen]
  exact length_encodeLoop hk hlo hhi

theorem varintLen_pos (value : ℕ) : 0 < varintLen value := by
  obtain ⟨k, -, hlen, -⟩ := varintLen_spec value
  omega

theorem varintLen_le (value : ℕ) : varintLen value ≤ 10 := by
  obtain ⟨k, hk, hlen, -⟩ := varintLen_spec value
  omega

theorem or_shiftLeft (low : ℕ) (hv : value < 2 ^ shift) (hlow : low * 2 ^ shift < 2 ^ 64) :
    value ||| (low <<< shift) % 2 ^ 64 = value + low * 2 ^ shift := by
  rw [Nat.shiftLeft_eq, Nat.mod_eq_of_lt hlow, mul_comm, Nat.or_comm,
    ← Nat.two_pow_add_eq_or_of_lt hv, add_comm]

theorem encodeLoop_ne_nil (rounds value : ℕ) : encodeLoop rounds value ≠ [] := by
  fun_cases encodeLoop rounds value <;> simp

theorem encodeVarint_ne_nil (value : ℕ) : encodeVarint value ≠ [] := encodeLoop_ne_nil 9 value

def spelled : List UInt8 → ℕ
  | [] => 0
  | b :: bs => b.toNat % 0x80 + 0x80 * spelled bs

structure Spells (init : List UInt8) (last : UInt8) : Prop where
  high : ∀ b ∈ init, 0x80 ≤ b.toNat
  low : last.toNat < 0x80

section Spelling

variable {init : List UInt8} {last b : UInt8} {acc i : ℕ}

theorem Spells.tail (h : Spells (b :: init) last) : Spells init last :=
  ⟨fun c hc => h.high c (.tail _ hc), h.low⟩

theorem spelled_singleton (h : last.toNat < 0x80) : spelled [last] = last.toNat := by
  simp [spelled, Nat.mod_eq_of_lt h]

theorem spelled_concat (init : List UInt8) (h : last.toNat < 0x80) :
    spelled (init ++ [last]) = spelled init + last.toNat * 128 ^ init.length := by
  induction init with
  | nil => simp [spelled, Nat.mod_eq_of_lt h]
  | cons b init ih =>
    simp only [cons_append, spelled, ih, length_cons, pow_succ']
    rw [Nat.mul_left_comm]
    omega

theorem spelled_lt (bs : List UInt8) : spelled bs < 128 ^ bs.length := by
  induction bs with
  | nil => simp [spelled]
  | cons b bs ih =>
    simp only [spelled, length_cons, pow_succ]
    omega

theorem encodeLoop_spelled {rounds : ℕ} (h : Spells init last) (hlen : init.length ≤ rounds)
    (hlast : 0 < last.toNat ∨ init = []) :
    encodeLoop rounds (spelled (init ++ [last])) = init ++ [last] := by
  induction init generalizing rounds with
  | nil =>
    rw [nil_append, spelled_singleton h.low, encodeLoop_of_lt h.low, UInt8.ofNat_toNat]
  | cons b init ih =>
    obtain ⟨rounds, rfl⟩ : ∃ r, rounds = r + 1 := ⟨rounds - 1, by simp at hlen; omega⟩
    have hlast : 0 < last.toNat := hlast.resolve_right (by simp)
    have hrest := ih h.tail (by simpa using hlen) (.inl hlast)
    have hpos : 0 < spelled (init ++ [last]) := by
      rw [spelled_concat init h.low]
      exact Nat.add_pos_right _ (Nat.mul_pos hlast (Nat.pow_pos (by decide)))
    have hbyte : ofNat (b.toNat % 0x80 + 0x80) = b := by
      have := h.high b (.head _)
      rw [show b.toNat % 0x80 + 0x80 = b.toNat by have := b.toNat_lt; omega, UInt8.ofNat_toNat]
    simp only [cons_append, spelled, encodeLoop]
    rw [if_neg (by omega), Nat.add_mul_mod_self_left, Nat.mod_mod, hbyte,
      show (b.toNat % 0x80 + 0x80 * spelled (init ++ [last])) / 0x80 = spelled (init ++ [last]) by
        omega, hrest]

theorem or_shiftLeft_last {low : ℕ} (hi : i ≤ 9) (hlow : low < 0x80) (hacc : acc < 2 ^ (7 * i)) :
    acc ||| (low <<< (7 * i)) % 2 ^ 64 = (acc + low * 2 ^ (7 * i)) % 2 ^ 64 := by
  by_cases h9 : i = 9
  · subst h9
    have hbit : (low <<< 63) % 2 ^ 64 = ((low % 2) <<< 63) % 2 ^ 64 := by
      omega
    rw [hbit, or_shiftLeft _ hacc (by omega)]
    omega
  · have hpow : 2 ^ (7 * i) ≤ 2 ^ 56 := Nat.pow_le_pow_right (by decide) (by omega)
    have hle : low * 2 ^ (7 * i) ≤ 127 * 2 ^ (7 * i) := Nat.mul_le_mul_right _ (by omega)
    rw [or_shiftLeft _ hacc (by omega), Nat.mod_eq_of_lt (by omega)]

theorem decodeLoop_spelled (post : List UInt8) (h : Spells init last) (hi : i + init.length ≤ 9)
    (hacc : acc < 2 ^ (7 * i)) :
    decodeLoop acc (7 * i) i (init ++ last :: post) =
      .ok ((acc + spelled (init ++ [last]) * 2 ^ (7 * i)) % 2 ^ 64, i + init.length + 1) := by
  induction init generalizing acc i with
  | nil =>
    have hi : i ≤ 9 := hi
    have hor := or_shiftLeft_last hi h.low hacc
    simp only [nil_append, decodeLoop, spelled_singleton h.low, Nat.mod_eq_of_lt h.low, hor]
    rw [if_neg (by omega), if_pos (by omega), if_pos h.low]
    rfl
  | cons b init ih =>
    have hb := h.high b (.head _)
    simp only [length_cons] at hi
    set low := b.toNat % 0x80 with hlow
    have hpow : 2 ^ (7 * i) ≤ 2 ^ 56 := Nat.pow_le_pow_right (by decide) (by omega)
    have hle : low * 2 ^ (7 * i) ≤ 127 * 2 ^ (7 * i) := Nat.mul_le_mul_right _ (by omega)
    have hor := or_shiftLeft low hacc (by omega)
    have hnext : 2 ^ (7 * (i + 1)) = 0x80 * 2 ^ (7 * i) := by
      rw [Nat.mul_succ, pow_add, mul_comm]
      rfl
    have hrest := ih h.tail (by omega) (show acc + low * 2 ^ (7 * i) < 2 ^ (7 * (i + 1)) by omega)
    simp only [cons_append, decodeLoop, ← hlow, hor, spelled]
    rw [if_neg (by omega), if_pos (by omega), if_neg (by omega), ← Nat.mul_succ, hrest, hnext,
      add_mul, add_assoc, mul_comm 0x80 (spelled _), mul_assoc, length_cons,
      Nat.add_right_comm i 1, Nat.add_assoc i]

theorem exists_spells {bs : List UInt8} {r : ℕ × ℕ} (h : decodeLoop acc shift i bs = .ok r) :
    ∃ init last post, bs = init ++ last :: post ∧ Spells init last ∧ i + init.length ≤ 9 := by
  induction bs generalizing acc shift i with
  | nil => cases h
  | cons b bs ih =>
    have hi : ¬ 10 < i + 1 := fun hi => by simp [decodeLoop, hi] at h
    by_cases hb : b.toNat < 0x80
    · exact ⟨[], b, bs, rfl, ⟨by simp, hb⟩, by simpa using by omega⟩
    · have hrest : ∃ acc' shift', decodeLoop acc' shift' (i + 1) bs = .ok r := by
        simp only [decodeLoop, hi, hb, if_false] at h
        split_ifs at h <;> exact ⟨_, _, h⟩
      obtain ⟨acc', shift', hrest⟩ := hrest
      obtain ⟨init, last, post, rfl, hspells, hlen⟩ := ih hrest
      refine ⟨b :: init, last, post, rfl, ⟨?_, hspells.low⟩, by simp; omega⟩
      simpa using ⟨not_lt.1 hb, hspells.high⟩

theorem encodeLoop_spells {rounds : ℕ} (h : value < 128 ^ (rounds + 1)) :
    ∃ init last, encodeLoop rounds value = init ++ [last] ∧ Spells init last ∧
      spelled (init ++ [last]) = value ∧ init.length ≤ rounds := by
  induction rounds generalizing value with
  | zero =>
    have hb : (ofNat value).toNat = value := toNat_ofNat_of_lt (by omega)
    exact ⟨[], ofNat value, rfl, ⟨by simp, by omega⟩, by simp [spelled]; omega, le_rfl⟩
  | succ rounds ih =>
    by_cases hlast : value < 0x80
    · have hb : (ofNat value).toNat = value := toNat_ofNat_of_lt (by omega)
      exact ⟨[], ofNat value, encodeLoop_of_lt hlast _, ⟨by simp, by omega⟩,
        by simp [spelled]; omega, Nat.zero_le _⟩
    · obtain ⟨init, last, hrest, hspells, hvalue, hlen⟩ := ih
        ((Nat.div_lt_iff_lt_mul (by decide)).2 (by simpa [pow_succ] using h) : value / 0x80 < _)
      have hb : (ofNat (value % 0x80 + 0x80)).toNat = value % 0x80 + 0x80 :=
        toNat_ofNat_of_lt (by omega)
      refine ⟨ofNat (value % 0x80 + 0x80) :: init, last, ?_, ⟨?_, hspells.low⟩, ?_, ?_⟩
      · simp [encodeLoop, hlast, hrest]
      · exact forall_mem_cons.2 ⟨by omega, hspells.high⟩
      · simp only [cons_append, spelled, hb, hvalue]
        omega
      · simpa using hlen

/-- **The decoder reads the number that the bytes spell, cut to 64 bits**, if its length fits. -/
theorem decodeVarint_spelled (post : List UInt8) (h : Spells init last) (hlen : init.length ≤ 9)
    (hvalue : spelled (init ++ [last]) % 2 ^ 64 = value) :
    decodeVarint (init ++ last :: post) =
      if varintLen value ≠ init.length + 1 then .error .nonCanonical
      else .ok (value, init.length + 1) := by
  subst hvalue
  have hloop : decodeLoop 0 0 0 (init ++ last :: post) =
      .ok (spelled (init ++ [last]) % 2 ^ 64, init.length + 1) := by
    have hread := decodeLoop_spelled post h (show 0 + init.length ≤ 9 by omega) Nat.zero_lt_one
    simpa using hread
  simp [decodeVarint, hloop]

theorem decodeVarint_encodeVarint (h : value < 2 ^ 64) (post : List UInt8) :
    decodeVarint (encodeVarint value ++ post) = .ok (value, (encodeVarint value).length) := by
  obtain ⟨init, last, henc, hspells, hvalue, hlen⟩ :=
    encodeLoop_spells (show value < 128 ^ (9 + 1) by omega)
  have henc : encodeVarint value = init ++ [last] := henc
  have hcut : spelled (init ++ [last]) % 2 ^ 64 = value := by rw [hvalue, Nat.mod_eq_of_lt h]
  have hbytes : varintLen value = init.length + 1 := by simp [← length_encodeVarint, henc]
  rw [length_encodeVarint, henc, append_assoc, singleton_append,
    decodeVarint_spelled post hspells hlen hcut, if_neg (not_not_intro hbytes), hbytes]

theorem decodeLoop_unfinished {bs : List UInt8} (h : ∀ b ∈ bs, 0x80 ≤ b.toNat) :
    decodeLoop acc shift i bs = .error .overflow := by
  induction bs generalizing acc shift i with
  | nil => rfl
  | cons b bs ih =>
    obtain ⟨hb, hbs⟩ := forall_mem_cons.1 h
    simp only [decodeLoop, ih hbs, if_neg (not_lt.2 hb), ite_self]

theorem decodeVarint_take {k : ℕ} (h : value < 2 ^ 64) (h0 : 0 < k) (hk : k < varintLen value) :
    decodeVarint ((encodeVarint value).take k) = .error .overflow := by
  obtain ⟨init, last, henc, hspells, -⟩ := encodeLoop_spells (show value < 128 ^ (9 + 1) by omega)
  have henc : encodeVarint value = init ++ [last] := henc
  have hlen : varintLen value = init.length + 1 := by simp [← length_encodeVarint, henc]
  have hne : (encodeVarint value).take k ≠ [] := by
    simp [encodeVarint_ne_nil]
    omega
  rw [decodeVarint, if_neg hne, henc, take_append_of_le_length (by omega),
    decodeLoop_unfinished fun b hb => hspells.high b (mem_of_mem_take hb)]

def Overlong (buf : List UInt8) : Prop :=
  ∃ init last post, buf = init ++ last :: post ∧ Spells init last ∧ init.length = 9 ∧
    last.toNat % 2 = 1 ∧ 1 < last.toNat

variable {buf : List UInt8} {n : ℕ}

theorem decodeVarint_ok (h : decodeVarint buf = .ok (value, n)) :
    ∃ init last post, buf = init ++ last :: post ∧ Spells init last ∧ init.length ≤ 9 ∧
      value = spelled (init ++ [last]) % 2 ^ 64 ∧ n = init.length + 1 ∧ varintLen value = n := by
  obtain ⟨r, hloop⟩ : ∃ r, decodeLoop 0 0 0 buf = .ok r := by
    cases hloop : decodeLoop 0 0 0 buf with
    | ok r => exact ⟨r, rfl⟩
    | error e =>
      simp only [decodeVarint, hloop] at h
      split_ifs at h
  obtain ⟨init, last, post, rfl, hspells, hlen⟩ := exists_spells hloop
  have hlen : init.length ≤ 9 := by omega
  rw [decodeVarint_spelled post hspells hlen rfl] at h
  split_ifs at h with hcanon
  obtain ⟨rfl, rfl⟩ := h
  exact ⟨init, last, post, rfl, hspells, hlen, rfl, rfl, not_not.mp hcanon⟩

/-- What the decoder accepts is the encoder's form, or too long. -/
theorem eq_encodeVarint_of_decodeVarint (h : decodeVarint buf = .ok (value, n))
    (hlong : ¬ Overlong buf) :
    value < 2 ^ 64 ∧ n = varintLen value ∧ ∃ post, buf = encodeVarint value ++ post := by
  obtain ⟨init, last, post, rfl, hspells, hlen, rfl, rfl, hcanon⟩ := decodeVarint_ok h
  have hlt := spelled_lt init
  have hsum := spelled_concat init hspells.low
  obtain ⟨k, -, hk, hlo, -⟩ := varintLen_spec (spelled (init ++ [last]) % 2 ^ 64)
  obtain rfl : k = init.length := by omega
  refine ⟨Nat.mod_lt _ (by decide), hcanon.symm, ?_⟩
  by_cases hfit : spelled (init ++ [last]) < 2 ^ 64
  · rw [Nat.mod_eq_of_lt hfit] at hlo ⊢
    have hlast : 0 < last.toNat ∨ init = [] := by
      rcases hlo with hlo | hnil
      · refine .inl (Nat.pos_of_ne_zero fun hzero => ?_)
        rw [hzero] at hsum
        omega
      · exact .inr (length_eq_zero_iff.1 hnil)
    have henc : encodeVarint (spelled (init ++ [last])) = init ++ [last] :=
      encodeLoop_spelled hspells hlen hlast
    exact ⟨post, by rw [henc, append_assoc, singleton_append]⟩
  · -- only ten bytes hold that many bits, and the one that is kept has to be set
    have hnine : init.length = 9 := by
      by_contra hne
      have hall := spelled_lt (init ++ [last])
      have hpow : 128 ^ (init ++ [last]).length ≤ 128 ^ 9 :=
        Nat.pow_le_pow_right (by decide) (by simp; omega)
      omega
    rw [hnine] at hlt hsum hlo
    exact absurd ⟨init, last, post, rfl, hspells, hnine, by omega, by omega⟩ hlong

/-- A number that is too long reads as one whose encoding ends in 1. -/
theorem decodeVarint_of_overlong (h : Overlong buf) :
    ∃ value < 2 ^ 64, 2 ^ 63 ≤ value ∧ decodeVarint buf = .ok (value, 10) ∧
      buf.take 10 ≠ encodeVarint value := by
  obtain ⟨init, last, post, rfl, hspells, hnine, hodd, hbig⟩ := h
  have hone : Spells init 1 := ⟨hspells.high, by decide⟩
  have hlt := spelled_lt init
  have hsum := spelled_concat init hspells.low
  have hsum' := spelled_concat init hone.low
  rw [hnine] at hlt hsum hsum'
  have h1 : (1 : UInt8).toNat = 1 := rfl
  have hcut : spelled (init ++ [last]) % 2 ^ 64 = spelled (init ++ [1]) := by omega
  have henc : encodeVarint (spelled (init ++ [1])) = init ++ [1] :=
    encodeLoop_spelled hone hnine.le (.inl (by decide))
  have hbytes : varintLen (spelled (init ++ [1])) = init.length + 1 := by
    simp [← length_encodeVarint, henc]
  refine ⟨spelled (init ++ [1]), by omega, by omega, ?_, ?_⟩
  · rw [decodeVarint_spelled post hspells hnine.le hcut, if_neg (not_not_intro hbytes), hnine]
  · have htake : (init ++ last :: post).take 10 = init ++ [last] := by
      simp [take_append, hnine, take_of_length_le]
    rw [henc, htake, Ne, append_cancel_left_eq, singleton_inj]
    rintro rfl
    exact absurd hbig (by decide)

theorem not_overlong_encodeVarint (hn : n < 2 ^ 64) (post : List UInt8) :
    ¬ Overlong (encodeVarint n ++ post) := by
  intro hlong
  obtain ⟨w, -, -, hw, htake⟩ := decodeVarint_of_overlong hlong
  rw [decodeVarint_encodeVarint hn] at hw
  obtain ⟨rfl, hten⟩ := Prod.mk.inj (Except.ok.inj hw)
  exact htake (take_left' hten)

end Spelling
end Varint
