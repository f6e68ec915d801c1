import Mathlib

/-!
# Decimal numerals in textual order

Numbers in decimal, followed by a character before the digits, compared as texts. Among the numbers
up to a bound, the greatest text belongs to the greatest number whose digits are nines except for
the last one.
-/

namespace DecimalOrder

open List Nat

def Nines (n : ℕ) : Prop := ∃ k, n / 10 + 1 = 10 ^ k

structure Leading (n b : ℕ) : Prop where
  le : b ≤ n
  nines : Nines b
  greatest : ∀ b', Nines b' → b' ≤ n → b' ≤ b

variable {n b e k d : ℕ} {c : Char}

theorem Nines.leading (h : Nines n) : Leading n n := ⟨le_rfl, h, fun _ _ hle => hle⟩

theorem Leading.of_not_nines (h : Leading (n + 1) b) (hn : ¬ Nines (n + 1)) : Leading n b := by
  have hne : b ≠ n + 1 := fun heq => hn (heq ▸ h.nines)
  have hle := h.le
  exact ⟨by omega, h.nines, fun b' hb' hle' => h.greatest b' hb' (by omega)⟩

theorem exists_leading (n : ℕ) : ∃ b, Leading n b := by
  induction n with
  | zero => exact ⟨0, Nines.leading ⟨0, rfl⟩⟩
  | succ n ih =>
    by_cases hn : Nines (n + 1)
    · exact ⟨n + 1, hn.leading⟩
    · obtain ⟨b, hle, hnines, hgreatest⟩ := ih
      refine ⟨b, by omega, hnines, fun b' hb' hle' => ?_⟩
      have hne : b' ≠ n + 1 := fun heq => hn (heq ▸ hb')
      exact hgreatest b' hb' (by omega)

theorem ofDigitChars_nines (k : ℕ) : ofDigitChars 10 (List.replicate k '9') 0 + 1 = 10 ^ k := by
  induction k with
  | zero => rfl
  | succ k ih =>
    rw [replicate_succ', ofDigitChars_append, ofDigitChars_cons,
      pow_succ, ← ih]
    show 10 * _ + 9 + 1 = _
    ring

theorem toDigits_nines (hn : n / 10 + 1 = 10 ^ k) :
    toDigits 10 n = List.replicate k '9' ++ [digitChar (n % 10)] := by
  induction k generalizing n with
  | zero =>
    have hlt : n < 10 := by
      omega
    rw [toDigits_of_lt_base hlt, Nat.mod_eq_of_lt hlt]
    rfl
  | succ k ih =>
    have hinner : n / 10 / 10 + 1 = 10 ^ k := by omega
    have hlast : n / 10 % 10 = 9 := by omega
    have hsplit := toDigits_append_toDigits (n := n / 10) (d := n % 10) (by decide)
      (by omega) (Nat.mod_lt n (by decide))
    rw [Nat.div_add_mod] at hsplit
    rw [← hsplit, ih hinner, hlast, toDigits_of_lt_base (Nat.mod_lt n (by decide)),
      replicate_succ']
    rfl

/-- A number that starts with nines, by the number of its other digits. -/
theorem eq_of_toDigits {r : List Char} (h : toDigits 10 e = List.replicate k '9' ++ r) :
    e + 10 ^ r.length = 10 ^ (k + r.length) + ofDigitChars 10 r 0 := by
  have hvalue : ofDigitChars 10 (toDigits 10 e) 0 = e := ofDigitChars_ten_toDigits
  rw [h, ofDigitChars_append, ofDigitChars_eq_ofDigitChars_zero] at hvalue
  have hnines := ofDigitChars_nines k
  rw [← hvalue, pow_add, ← hnines]
  ring

theorem le_nine_of_mem (h : c ∈ toDigits 10 e) : '0' ≤ c ∧ c ≤ '9' := by
  have hdigit := isDigit_of_mem_toDigits (by decide) (by decide) h
  rw [Char.isDigit, Bool.and_eq_true] at hdigit
  exact ⟨of_decide_eq_true hdigit.1, of_decide_eq_true hdigit.2⟩

variable {x y : List Char}

/-- The number is what stands before the first character that comes before the digits. -/
theorem toDigits_inj {e' : ℕ} (hc : c < '0')
    (h : toDigits 10 e ++ c :: x = toDigits 10 e' ++ c :: y) : e = e' := by
  have htake : ∀ n z, (toDigits 10 n ++ c :: z).takeWhile (fun a => decide ('0' ≤ a)) =
      toDigits 10 n := by
    intro n z
    have hdigits : ∀ a ∈ toDigits 10 n, decide ('0' ≤ a) = true := fun a ha => by
      simpa using (le_nine_of_mem ha).1
    rw [takeWhile_append_of_pos hdigits, takeWhile_cons_of_neg (by simpa using hc),
      append_nil]
  have heq : toDigits 10 e = toDigits 10 e' := by rw [← htake e x, h, htake e' y]
  rw [← ofDigitChars_ten_toDigits (n := e), heq, ofDigitChars_ten_toDigits]

/-! ## The order -/

theorem lt_of_not_prefix {s x y : List Char} (hs : ∀ c' ∈ s, c' ≤ '9') (hc : c < '0')
    (h : ¬ List.replicate k '9' <+: s) : s ++ c :: x < List.replicate k '9' ++ y := by
  induction k generalizing s with
  | zero => exact absurd List.nil_prefix h
  | succ k ih =>
    rw [replicate_succ, cons_append]
    cases s with
    | nil => exact cons_lt_cons_iff.mpr (.inl (hc.trans (by decide)))
    | cons a s =>
      rw [cons_append, cons_lt_cons_iff]
      rcases (hs a mem_cons_self).lt_or_eq with hlt | rfl
      · exact .inl hlt
      · refine .inr ⟨rfl, ih (fun c' hc' => hs c' (mem_cons_of_mem _ hc')) fun hpre => h ?_⟩
        exact (cons_prefix_cons).mpr ⟨rfl, hpre⟩

theorem lt_of_lt (hb : b / 10 + 1 = 10 ^ k) (he : e < b) (hc : c < '0') :
    toDigits 10 e ++ c :: x < toDigits 10 b ++ c :: y := by
  rw [toDigits_nines hb, append_assoc]
  by_cases hpre : List.replicate k '9' <+: toDigits 10 e
  · obtain ⟨r, hr⟩ := hpre
    have hdigit : b % 10 < 10 := Nat.mod_lt _ (by decide)
    -- there is room for one more digit
    have hlen : r.length ≤ 1 := by
      have hbound : e < 10 ^ (k + 1) := by
        omega
      have hcount := (length_toDigits_le_iff (by decide) (Nat.succ_pos k)).mpr hbound
      rw [← hr, length_append, length_replicate] at hcount
      omega
    have hvalue := eq_of_toDigits hr.symm
    rw [← hr, append_assoc]
    refine append_left_lt ?_
    match r, hlen with
    | [], _ =>
      refine cons_lt_cons_iff.mpr (.inl (hc.trans_le ?_))
      exact (le_nine_of_mem (by
        rw [toDigits_of_lt_base hdigit]
        exact mem_singleton_self _)).1
    | [a], _ =>
      refine cons_lt_cons_iff.mpr (.inl ?_)
      have ha := (le_nine_of_mem (by
        rw [← hr]
        exact mem_append_right _ (mem_singleton_self a)))
      have hsmall : a.toNat - '0'.toNat < b % 10 := by
        rw [ofDigitChars_cons, ofDigitChars_nil, length_singleton] at hvalue
        omega
      show a.toNat < (digitChar (b % 10)).toNat
      rw [toNat_digitChar_of_lt_ten hdigit]
      have h48 : '0'.toNat = 48 := rfl
      omega
  · exact lt_of_not_prefix (fun c' hc' => (le_nine_of_mem hc').2) hc hpre

theorem lt_leading (hb : Leading n b) (he : e ≤ n) (hne : e ≠ b) (hc : c < '0') :
    toDigits 10 e ++ c :: x < toDigits 10 b ++ c :: y := by
  obtain ⟨k, hk⟩ := hb.nines
  rcases Nat.lt_or_gt_of_ne hne with hlt | hgt
  · exact lt_of_lt hk hlt hc
  · -- the last digit is a nine as well, or the next number would do
    have hlast : b % 10 = 9 := by
      by_contra hlast
      have := hb.greatest (b + 1) ⟨k, by omega⟩ (by omega)
      omega
    have hdigits : toDigits 10 b = List.replicate (k + 1) '9' := by
      rw [toDigits_nines hk, hlast, replicate_succ']
      rfl
    rw [hdigits]
    refine lt_of_not_prefix (fun c' hc' => (le_nine_of_mem hc').2) hc fun ⟨r, hr⟩ => ?_
    have hvalue := eq_of_toDigits hr.symm
    have hb10 : b + 1 = 10 ^ (k + 1) := by
      omega
    rcases Nat.eq_zero_or_pos r.length with hzero | hpos
    · rw [hzero, eq_nil_of_length_eq_zero hzero, ofDigitChars_nil, Nat.add_zero,
        Nat.add_zero] at hvalue
      exact hne (by omega)
    · -- a longer number with that many nines is at least the next candidate
      have hnext : 10 * b ≤ e := by
        have hpow : 10 ≤ 10 ^ r.length := Nat.le_self_pow (by omega) 10
        rw [pow_add, ← hb10] at hvalue
        have hmul : 10 * b ≤ 10 ^ r.length * b := Nat.mul_le_mul_right b hpow
        have hexpand : (b + 1) * 10 ^ r.length = 10 ^ r.length * b + 10 ^ r.length := by ring
        omega
      have := hb.greatest (10 * b) ⟨k + 1, by omega⟩ (hnext.trans he)
      omega

end DecimalOrder
