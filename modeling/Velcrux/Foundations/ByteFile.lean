import Mathlib

/-!
# Files that are written at offsets

A regular file is a list of cells, written and truncated as by `pwrite` and `ftruncate`. `cellAt f
i` is the `i`-th cell, and `0` beyond the end, so that reading back a write needs no side condition.
-/

namespace ByteFile

open List

variable {α : Type*}
variable {f g data src : List α} {off n i : ℕ} {ps : List (ℕ × List α)}

def slice (f : List α) (off len : ℕ) : List α := (f.drop off).take len

@[simp] theorem length_slice (f : List α) (off len : ℕ) :
    (slice f off len).length = min len (f.length - off) := by simp [slice]

theorem length_slice_of_le {len : ℕ} (h : off + len ≤ f.length) :
    (slice f off len).length = len := by
  rw [length_slice]; omega

theorem slice_append (f : List α) (off a b : ℕ) :
    slice f off a ++ slice f (off + a) b = slice f off (a + b) := by
  simp only [slice]
  rw [← drop_drop, take_add]

theorem slice_append_right (h : f.length = n) (off len : ℕ) :
    slice (f ++ g) (n + off) len = slice g off len := by
  rw [slice, slice, ← drop_drop, drop_left' h]

theorem slice_append_left (h : f.length = n) : slice (f ++ g) 0 n = f := by
  rw [slice, drop_zero, take_left' h]

def buffers (size : ℕ) (f : List α) : List (List α) :=
  (List.range ((f.length + size - 1) / size)).map fun i => slice f (i * size) size

theorem buffers_flatten {size : ℕ} (hs : 0 < size) (f : List α) : (buffers size f).flatten = f := by
  have hpre : ∀ n, ((List.range n).map fun i => slice f (i * size) size).flatten =
      slice f 0 (n * size) := by
    intro n
    induction n with
    | zero => simp [slice]
    | succ n ih =>
      rw [range_succ, map_append, flatten_append, ih, Nat.succ_mul]
      simpa using slice_append f 0 (n * size) size
  have hle : f.length ≤ (f.length + size - 1) / size * size := by
    have h1 := Nat.div_add_mod (f.length + size - 1) size
    have h2 := Nat.mod_lt (f.length + size - 1) hs
    have h3 := Nat.mul_comm size ((f.length + size - 1) / size)
    omega
  rw [buffers, hpre, slice, drop_zero, take_of_length_le hle]

variable [OfNat α 0]

def setLen (f : List α) (n : ℕ) : List α := f.take n ++ List.replicate (n - f.length) 0

def writeAt (f : List α) (off : ℕ) (data : List α) : List α :=
  if data = [] then f
  else (setLen f off) ++ data ++ f.drop (off + data.length)

def cellAt (f : List α) (i : ℕ) : α := f.getD i 0

@[simp] theorem length_setLen (f : List α) (n : ℕ) : (setLen f n).length = n := by
  simp [setLen]; omega

@[simp] theorem writeAt_nil (f : List α) (off : ℕ) : writeAt f off [] = f := by simp [writeAt]

theorem length_writeAt (hd : data ≠ []) (f : List α) (off : ℕ) :
    (writeAt f off data).length = max f.length (off + data.length) := by
  simp [writeAt, hd]; omega

theorem length_writeAt_of_le (h : off + data.length ≤ f.length) :
    (writeAt f off data).length = f.length := by
  by_cases hd : data = []
  · simp [hd]
  · rw [length_writeAt hd]; omega

theorem length_le_writeAt (f data : List α) (off : ℕ) : f.length ≤ (writeAt f off data).length := by
  by_cases hd : data = []
  · simp [hd]
  · rw [length_writeAt hd]; omega

theorem length_writeAt_le (hf : f.length ≤ n)
    (hd : off + data.length ≤ n) : (writeAt f off data).length ≤ n := by
  by_cases h : data = []
  · simpa [h] using hf
  · rw [length_writeAt h]; omega

theorem cellAt_of_length_le (h : f.length ≤ i) : cellAt f i = 0 :=
  getD_eq_default f 0 h

theorem cellAt_eq_getElem (h : i < f.length) : cellAt f i = f[i] :=
  getD_eq_getElem f 0 h

@[simp] theorem cellAt_replicate (n i : ℕ) : cellAt (List.replicate n (0 : α)) i = 0 := by
  by_cases h : i < n
  · rw [cellAt_eq_getElem (by simpa using h)]; simp
  · exact cellAt_of_length_le (by simpa using h)

theorem cellAt_append_left (h : i < f.length) :
    cellAt (f ++ g) i = cellAt f i := getD_append f g 0 i h

theorem cellAt_append_right (h : f.length ≤ i) :
    cellAt (f ++ g) i = cellAt g (i - f.length) := getD_append_right f g 0 i h

theorem cellAt_drop (f : List α) (k i : ℕ) : cellAt (f.drop k) i = cellAt f (k + i) := by
  simp [cellAt, getD_eq_getElem?_getD, List.getElem?_drop]

theorem cellAt_take {k : ℕ} (h : i < k) : cellAt (f.take k) i = cellAt f i := by
  simp [cellAt, getD_eq_getElem?_getD, h]

theorem cellAt_slice {len : ℕ} (h : i < len) : cellAt (slice f off len) i = cellAt f (off + i) := by
  rw [slice, cellAt_take h, cellAt_drop]

theorem cellAt_setLen (h : i < n) : cellAt (setLen f n) i = cellAt f i := by
  unfold setLen
  by_cases hi : i < f.length
  · rw [cellAt_append_left (by simp; omega), cellAt_take h]
  · rw [cellAt_append_right (by simp; omega), cellAt_replicate, cellAt_of_length_le (by omega)]

/-- **Reading back a write**: the written cells inside its range, the old ones elsewhere. -/
theorem cellAt_writeAt (f data : List α) (off i : ℕ) :
    cellAt (writeAt f off data) i =
      if off ≤ i ∧ i < off + data.length then cellAt data (i - off) else cellAt f i := by
  by_cases hd : data = []
  · subst hd
    rw [writeAt_nil, if_neg (by simp)]
  unfold writeAt
  rw [if_neg hd, append_assoc]
  by_cases h1 : i < off
  · rw [cellAt_append_left (by simpa using h1), cellAt_setLen h1, if_neg (by omega)]
  · rw [cellAt_append_right (by simpa using h1), length_setLen]
    by_cases h2 : i < off + data.length
    · rw [cellAt_append_left (by omega), if_pos ⟨by omega, h2⟩]
    · rw [cellAt_append_right (by omega), cellAt_drop, if_neg (by omega)]
      congr 1
      omega

theorem ext_cellAt (hl : f.length = g.length)
    (h : ∀ i, i < g.length → cellAt f i = cellAt g i) : f = g := by
  refine ext_getElem hl fun i h1 h2 => ?_
  have := h i h2
  rwa [cellAt_eq_getElem h1, cellAt_eq_getElem h2] at this

/-! ## A sequence of writes

A list of pieces `(off, data)` written in order. -/

def writeAll (f : List α) (ps : List (ℕ × List α)) : List α :=
  ps.foldl (fun g p => writeAt g p.1 p.2) f

def Covers (p : ℕ × List α) (i : ℕ) : Prop := p.1 ≤ i ∧ i < p.1 + p.2.length

instance (p : ℕ × List α) (i : ℕ) : Decidable (Covers p i) :=
  inferInstanceAs (Decidable (_ ∧ _))

def PieceOf (src : List α) (p : ℕ × List α) : Prop := p.2 = slice src p.1 p.2.length

@[simp] theorem writeAll_nil (f : List α) : writeAll f [] = f := rfl

@[simp] theorem writeAll_cons (f : List α) (p : ℕ × List α) (ps : List (ℕ × List α)) :
    writeAll f (p :: ps) = writeAll (writeAt f p.1 p.2) ps := rfl

theorem PieceOf.cellAt {p : ℕ × List α} (h : PieceOf src p)
    (hi : Covers p i) : cellAt p.2 (i - p.1) = cellAt src i := by
  obtain ⟨h1, h2⟩ := hi
  rw [h, cellAt_slice (by omega)]
  congr 1
  omega

theorem cellAt_writeAll (hs : ∀ p ∈ ps, PieceOf src p) (f : List α) (i : ℕ) :
    cellAt (writeAll f ps) i = if ∃ p ∈ ps, Covers p i then cellAt src i else cellAt f i := by
  induction ps generalizing f with
  | nil => simp
  | cons p ps ih =>
    rw [writeAll_cons, ih (fun q hq => hs q (mem_cons_of_mem _ hq)), cellAt_writeAt]
    change (if _ then _ else if Covers p i then _ else _) = _
    by_cases h1 : ∃ q ∈ ps, Covers q i
    · obtain ⟨q, hq, hqi⟩ := h1
      rw [if_pos ⟨q, hq, hqi⟩, if_pos ⟨q, mem_cons_of_mem _ hq, hqi⟩]
    · rw [if_neg h1]
      by_cases h2 : Covers p i
      · rw [if_pos h2, if_pos ⟨p, mem_cons_self, h2⟩]
        exact (hs p mem_cons_self).cellAt h2
      · rw [if_neg h2, if_neg]
        rintro ⟨q, hq, hqi⟩
        rcases mem_cons.mp hq with rfl | hq
        · exact h2 hqi
        · exact h1 ⟨q, hq, hqi⟩

theorem length_writeAll_le (hf : f.length ≤ n)
    (h : ∀ p ∈ ps, p.1 + p.2.length ≤ n) : (writeAll f ps).length ≤ n := by
  induction ps generalizing f with
  | nil => exact hf
  | cons p ps ih =>
    exact ih (length_writeAt_le hf (h p mem_cons_self))
      (fun q hq => h q (mem_cons_of_mem _ hq))

def Agrees (src f : List α) (i : ℕ) : Prop := i < f.length ∧ cellAt f i = cellAt src i

theorem length_le_writeAll (f : List α) (ps : List (ℕ × List α)) :
    f.length ≤ (writeAll f ps).length := by
  induction ps generalizing f with
  | nil => exact Nat.le_refl _
  | cons p ps ih => exact Nat.le_trans (length_le_writeAt f p.2 p.1) (ih _)

theorem lt_length_writeAll {p : ℕ × List α} (hp : p ∈ ps)
    (hi : Covers p i) (f : List α) : i < (writeAll f ps).length := by
  induction ps generalizing f with
  | nil => simp at hp
  | cons q ps ih =>
    rcases mem_cons.mp hp with rfl | hp
    · obtain ⟨h1, h2⟩ := hi
      have hne : p.2 ≠ [] := by
        intro h
        simp [h] at h2
        omega
      have hle := length_le_writeAll (writeAt f p.1 p.2) ps
      rw [length_writeAt hne] at hle
      rw [writeAll_cons]
      omega
    · exact ih hp _

theorem agrees_writeAll (hs : ∀ p ∈ ps, PieceOf src p) (h : Agrees src f i ∨ ∃ p ∈ ps, Covers p i) :
    Agrees src (writeAll f ps) i := by
  have hcell := cellAt_writeAll hs f i
  rcases h with h | ⟨p, hp, hi⟩
  · refine ⟨Nat.lt_of_lt_of_le h.1 (length_le_writeAll f ps), ?_⟩
    rw [hcell]
    split_ifs
    · rfl
    · exact h.2
  · refine ⟨lt_length_writeAll hp hi f, ?_⟩
    rw [hcell, if_pos ⟨p, hp, hi⟩]

theorem writeAll_eq_append_drop
    (hs : ∀ p ∈ ps, PieceOf src p) (hin : ∀ p ∈ ps, p.1 + p.2.length ≤ src.length)
    (h : ∀ i, i < src.length → Agrees src f i ∨ ∃ p ∈ ps, Covers p i) :
    writeAll f ps = src ++ f.drop src.length := by
  have hagree : ∀ i, i < src.length → Agrees src (writeAll f ps) i :=
    fun i hi => agrees_writeAll hs (h i hi)
  have hle : (writeAll f ps).length ≤ max f.length src.length :=
    length_writeAll_le (Nat.le_max_left _ _) fun p hp =>
      Nat.le_trans (hin p hp) (Nat.le_max_right _ _)
  have hge := length_le_writeAll f ps
  have hsrc : src.length ≤ (writeAll f ps).length := by
    by_contra hlt
    have := (hagree (writeAll f ps).length (by omega)).1
    omega
  refine ext_cellAt (by simp only [length_append, length_drop]; omega) fun i _ => ?_
  by_cases hi : i < src.length
  · rw [(hagree i hi).2, cellAt_append_left hi]
  · rw [cellAt_append_right (by omega), cellAt_drop, cellAt_writeAll hs, if_neg]
    · congr 1
      omega
    · rintro ⟨p, hp, hc⟩
      have := hin p hp
      have := hc.2
      omega

end ByteFile
