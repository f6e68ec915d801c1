import Velcrux.Foundations.LittleEndian

/-!
# Decoders of byte layouts

A decoder reads a value at a cursor of a buffer and moves the cursor. `Decodes d a enc` says that
`d` reads `a` off `enc` wherever `enc` stands and whatever follows it. `DecodesAll` is for a layout
that fills the buffer.
-/

namespace Decoding

open LittleEndian List

structure Cursor where
  pos : ℕ
  rest : List UInt8

abbrev Decoder (ε α : Type) := StateT Cursor (Except ε) α

variable {ε α β : Type} (d : Decoder ε α)

def Decoder.run (buf : List UInt8) : Except ε α := (d ⟨0, buf⟩).map Prod.fst

def need (n : ℕ) (e : ε) : Decoder ε Unit := fun c =>
  if c.rest.length < n then .error e else .ok ((), c)

def take (n : ℕ) : Decoder ε (List UInt8) := fun c =>
  .ok (c.rest.take n, ⟨c.pos + n, c.rest.drop n⟩)

def skip (n : ℕ) : Decoder ε Unit := (fun _ => ()) <$> take n

def refuse (p : Prop) [Decidable p] (e : ε) : Decoder ε Unit := fun c =>
  if p then .error e else .ok ((), c)

def result (x : Except ε α) : Decoder ε α := fun c => x.map fun a => (a, c)

def ofOption (x : Option α) (e : ε) : Decoder ε α := fun c =>
  match x with
  | some a => .ok (a, c)
  | none => .error e

def checkedAdd (n : ℕ) (e : ε) : Decoder ε Unit := fun c =>
  if 2 ^ 64 ≤ c.pos + n then .error e else .ok ((), c)

def takeRest : Decoder ε (List UInt8) := fun c => .ok (c.rest, ⟨c.pos + c.rest.length, []⟩)

def atEnd : Decoder ε Bool := fun c => .ok (c.rest.isEmpty, c)

def u8 : Decoder ε UInt8 := (fun bs => bs.headD 0) <$> take 1

def u16 : Decoder ε UInt16 := (fun bs => UInt16.ofNat (decodeLE bs)) <$> take 2

def u32 : Decoder ε UInt32 := (fun bs => UInt32.ofNat (decodeLE bs)) <$> take 4

def u64 : Decoder ε UInt64 := (fun bs => UInt64.ofNat (decodeLE bs)) <$> take 8

def many (d : Decoder ε α) : ℕ → Decoder ε (List α)
  | 0 => pure []
  | n + 1 => do
    let a ← d
    let as ← many d n
    return a :: as

/-! ## Taking a successful decoding apart -/

theorem bind_of_eq_ok {d : Decoder ε β} {k : β → Decoder ε α} {c c1 : Cursor} {b : β}
    (h : d c = .ok (b, c1)) : (d >>= k) c = k b c1 := by
  change (d c >>= fun y => k y.1 y.2) = _
  rw [h]
  rfl

theorem map_apply (d : Decoder ε β) (g : β → α) (c : Cursor) :
    (g <$> d) c = (d c).map fun y => (g y.1, y.2) := rfl

theorem bind_eq_ok_iff {d : Decoder ε β} {k : β → Decoder ε α} {c : Cursor} {x : α × Cursor} :
    (d >>= k) c = .ok x ↔ ∃ b c1, d c = .ok (b, c1) ∧ k b c1 = .ok x := by
  have hbind : (d >>= k) c = (d c).bind fun y => k y.1 y.2 := rfl
  rw [hbind]
  cases hd : d c with
  | error e => simp [Except.bind]
  | ok y => simp [Except.bind, Prod.ext_iff]

theorem map_eq_ok_iff {d : Decoder ε β} {g : β → α} {c c' : Cursor} {a : α} :
    (g <$> d) c = .ok (a, c') ↔ ∃ b, d c = .ok (b, c') ∧ g b = a := by
  rw [map_apply]
  cases hd : d c with
  | error e => simp [Except.map]
  | ok y => simp [Except.map, Prod.ext_iff, and_comm]

variable {e : ε}

theorem ofOption_eq_ok_iff {y : Option α} {c c' : Cursor} {a : α} :
    ofOption y e c = .ok (a, c') ↔ y = some a ∧ c = c' := by
  cases y <;> simp [ofOption]

theorem result_eq_ok_iff {y : Except ε α} {c c' : Cursor} {a : α} :
    result y c = .ok (a, c') ↔ y = .ok a ∧ c = c' := by
  cases y <;> simp [result, Except.map]

section Checks

variable {k : Unit → Decoder ε α} {c : Cursor} {x : α × Cursor} {n : ℕ} {e : ε} {p : Prop} [Decidable p]

theorem check_bind {check : Decoder ε Unit} (h : check c = if p then .error e else .ok ((), c)) :
    (check >>= k) c = if p then .error e else k () c := by
  change (check c >>= fun y => k y.1 y.2) = _
  rw [h]
  by_cases hp : p <;> simp only [hp, if_true, if_false] <;> rfl

theorem need_bind : (need n e >>= k) c = if c.rest.length < n then .error e else k () c :=
  check_bind rfl

theorem refuse_bind : (refuse p e >>= k) c = if p then .error e else k () c := check_bind rfl

theorem checkedAdd_bind :
    (checkedAdd n e >>= k) c = if 2 ^ 64 ≤ c.pos + n then .error e else k () c :=
  check_bind rfl

theorem ite_error_eq_ok_iff {y : Except ε (α × Cursor)} :
    (if p then .error e else y) = .ok x ↔ ¬ p ∧ y = .ok x := by
  by_cases hp : p <;> simp [hp]

theorem need_bind_eq_ok_iff :
    (need n e >>= k) c = .ok x ↔ ¬ c.rest.length < n ∧ k () c = .ok x := by
  rw [need_bind, ite_error_eq_ok_iff]

theorem refuse_bind_eq_ok_iff : (refuse p e >>= k) c = .ok x ↔ ¬ p ∧ k () c = .ok x := by
  rw [refuse_bind, ite_error_eq_ok_iff]

theorem checkedAdd_bind_eq_ok_iff :
    (checkedAdd n e >>= k) c = .ok x ↔ ¬ 2 ^ 64 ≤ c.pos + n ∧ k () c = .ok x := by
  rw [checkedAdd_bind, ite_error_eq_ok_iff]

end Checks

theorem run_eq_ok_iff {d : Decoder ε α} {buf : List UInt8} {a : α} :
    d.run buf = .ok a ↔ ∃ c, d ⟨0, buf⟩ = .ok (a, c) := by
  rw [Decoder.run]
  cases hd : d ⟨0, buf⟩ with
  | error e => simp [Except.map]
  | ok y => simp [Except.map, Prod.ext_iff]

/-! ## Reading an encoding -/

def Decodes (a : α) (enc : List UInt8) : Prop :=
  ∀ pos post, pos + enc.length < 2 ^ 64 →
    d ⟨pos, enc ++ post⟩ = .ok (a, ⟨pos + enc.length, post⟩)

def DecodesAll (a : α) (enc : List UInt8) : Prop :=
  ∀ pos, pos + enc.length < 2 ^ 64 → d ⟨pos, enc⟩ = .ok (a, ⟨pos + enc.length, []⟩)

def Fails (e : ε) (enc : List UInt8) : Prop :=
  ∀ pos post, pos + enc.length < 2 ^ 64 → d ⟨pos, enc ++ post⟩ = .error e

variable {d : Decoder ε α} {f : α → Decoder ε β} {a : α} {b : β} {enc enc1 enc2 : List UInt8}

theorem Decodes.of_lt (h : enc.length < 2 ^ 64 → Decodes d a enc) : Decodes d a enc :=
  fun pos post hpos => h (by omega) pos post hpos

theorem Decodes.run (h : Decodes d a enc) (hlen : enc.length < 2 ^ 64) (junk : List UInt8) :
    d.run (enc ++ junk) = .ok a := by
  rw [Decoder.run, h 0 junk (by simpa using hlen)]
  rfl

theorem DecodesAll.run (h : DecodesAll d a enc) (hlen : enc.length < 2 ^ 64) :
    d.run enc = .ok a := by
  rw [Decoder.run, h 0 (by simpa using hlen)]
  rfl

theorem decodes_pure (a : α) : Decodes (pure a : Decoder ε α) a [] := fun _ _ _ => rfl

theorem Decodes.bind (hd : Decodes d a enc1) (hf : Decodes (f a) b enc2) :
    Decodes (d >>= f) b (enc1 ++ enc2) := by
  intro pos post hpos
  rw [length_append] at hpos ⊢
  rw [append_assoc, bind_of_eq_ok (hd pos (enc2 ++ post) (by omega)), ← add_assoc]
  exact hf (pos + enc1.length) post (by omega)

theorem Decodes.bindAll (hd : Decodes d a enc1) (hf : DecodesAll (f a) b enc2) :
    DecodesAll (d >>= f) b (enc1 ++ enc2) := by
  intro pos hpos
  rw [length_append] at hpos ⊢
  rw [bind_of_eq_ok (hd pos enc2 (by omega)), ← add_assoc]
  exact hf (pos + enc1.length) (by omega)

theorem Decodes.bind_nil (hd : Decodes d a []) (hf : Decodes (f a) b enc) :
    Decodes (d >>= f) b enc := hd.bind hf

theorem Decodes.bind_nil_all (hd : Decodes d a []) (hf : DecodesAll (f a) b enc) :
    DecodesAll (d >>= f) b enc := hd.bindAll hf

theorem Decodes.bind_last (hd : Decodes d a enc) (hf : Decodes (f a) b []) :
    Decodes (d >>= f) b enc := by
  have h := hd.bind hf
  rwa [append_nil] at h

theorem decodes_refuse {p : Prop} [Decidable p] (h : ¬ p) (e : ε) : Decodes (refuse p e) () [] := by
  intro pos post _
  simp [refuse, h]

theorem decodes_result {x : Except ε α} (h : x = .ok a) : Decodes (result x) a [] := by
  subst h
  exact fun _ _ _ => rfl

theorem decodes_ofOption {x : Option α} (h : x = some a) (e : ε) : Decodes (ofOption x e) a [] := by
  subst h
  exact fun _ _ _ => rfl

theorem Fails.run (h : Fails d e enc) (hlen : enc.length < 2 ^ 64) (junk : List UInt8) :
    d.run (enc ++ junk) = .error e := by
  rw [Decoder.run, h 0 junk (by simpa using hlen)]
  rfl

theorem Decodes.bind_fails (hd : Decodes d a enc1) (hf : Fails (f a) e enc2) :
    Fails (d >>= f) e (enc1 ++ enc2) := by
  intro pos post hpos
  rw [length_append] at hpos
  rw [append_assoc, bind_of_eq_ok (hd pos (enc2 ++ post) (by omega))]
  exact hf (pos + enc1.length) post (by omega)

theorem fails_refuse {p : Prop} [Decidable p] (h : p) (e : ε) (k : Unit → Decoder ε α)
    (enc : List UInt8) : Fails (refuse p e >>= k) e enc := by
  intro pos post _
  rw [refuse_bind, if_pos h]

theorem Decodes.map (hd : Decodes d a enc) (g : α → β) : Decodes (g <$> d) (g a) enc := by
  intro pos post hpos
  rw [map_apply, hd pos post hpos]
  rfl

theorem DecodesAll.map (hd : DecodesAll d a enc) (g : α → β) : DecodesAll (g <$> d) (g a) enc := by
  intro pos hpos
  rw [map_apply, hd pos hpos]
  rfl

theorem Fails.map (hd : Fails d e enc) (g : α → β) : Fails (g <$> d) e enc := by
  intro pos post hpos
  rw [map_apply, hd pos post hpos]
  rfl

variable {k : Unit → Decoder ε α} {n : ℕ}

theorem Decodes.checkedAdd (hn : n ≤ enc.length)
    (hd : Decodes (k ()) a enc) : Decodes (checkedAdd n e >>= k) a enc := by
  intro pos post hpos
  rw [checkedAdd_bind, if_neg (by simp only; omega)]
  exact hd pos post hpos

theorem Decodes.need (hn : n ≤ enc.length)
    (hd : Decodes (k ()) a enc) : Decodes (need n e >>= k) a enc := by
  intro pos post hpos
  rw [need_bind, if_neg (by rw [length_append]; omega)]
  exact hd pos post hpos

theorem Decodes.atEnd {k : Bool → Decoder ε α} (hne : enc ≠ []) (hd : Decodes (k false) a enc) :
    Decodes (atEnd >>= k) a enc := by
  intro pos post hpos
  have hrest : (enc ++ post).isEmpty = false := by simp [hne]
  rw [bind_of_eq_ok rfl, hrest]
  exact hd pos post hpos

theorem Fails.need {e e' : ε} (hn : n ≤ enc.length)
    (hd : Fails (k ()) e enc) : Fails (Decoding.need n e' >>= k) e enc := by
  intro pos post hpos
  rw [need_bind, if_neg (by rw [length_append]; omega)]
  exact hd pos post hpos

theorem DecodesAll.need (hn : n ≤ enc.length)
    (hd : DecodesAll (k ()) a enc) : DecodesAll (Decoding.need n e >>= k) a enc := by
  intro pos hpos
  rw [need_bind, if_neg (by simp only; omega)]
  exact hd pos hpos

theorem decodes_take (h : enc.length = n) : Decodes (take n : Decoder ε _) enc enc := by
  intro pos post _
  subst h
  simp [take]

theorem decodes_skip (h : enc.length = n) : Decodes (skip n : Decoder ε _) () enc :=
  (decodes_take h).map fun _ => ()

theorem decodesAll_takeRest_bind {k : List UInt8 → Decoder ε α} (hk : Decodes (k enc) a []) :
    DecodesAll (takeRest >>= k) a enc := by
  intro pos hpos
  exact hk (pos + enc.length) [] (by simpa using hpos)

theorem decodes_u8 (x : UInt8) : Decodes (u8 : Decoder ε _) x [x] :=
  (decodes_take rfl).map fun bs => bs.headD 0

theorem decodes_u16 (x : UInt16) : Decodes (u16 : Decoder ε _) x (encodeLE 2 x.toNat) := by
  have h := (decodes_take (ε := ε) (length_encodeLE 2 x.toNat)).map
    fun bs => UInt16.ofNat (decodeLE bs)
  rwa [decodeLE_encodeLE_of_lt x.toNat_lt, UInt16.ofNat_toNat] at h

theorem decodes_u32 (x : UInt32) : Decodes (u32 : Decoder ε _) x (encodeLE 4 x.toNat) := by
  have h := (decodes_take (ε := ε) (length_encodeLE 4 x.toNat)).map
    fun bs => UInt32.ofNat (decodeLE bs)
  rwa [decodeLE_encodeLE_of_lt x.toNat_lt, UInt32.ofNat_toNat] at h

theorem decodes_u64 (x : UInt64) : Decodes (u64 : Decoder ε _) x (encodeLE 8 x.toNat) := by
  have h := (decodes_take (ε := ε) (length_encodeLE 8 x.toNat)).map
    fun bs => UInt64.ofNat (decodeLE bs)
  rwa [decodeLE_encodeLE_of_lt x.toNat_lt, UInt64.ofNat_toNat] at h

theorem decodes_many {enc : α → List UInt8} {as : List α} (h : ∀ a ∈ as, Decodes d a (enc a)) :
    Decodes (many d as.length) as (as.flatMap enc) := by
  induction as with
  | nil => exact decodes_pure []
  | cons a as ih =>
    have ha := h a (mem_cons_self ..)
    have has := ih fun b hb => h b (mem_cons_of_mem a hb)
    exact ha.bind (has.bind_last (decodes_pure _))

structure Passed (c : Cursor) (bs : List UInt8) (c' : Cursor) : Prop where
  rest_eq : c.rest = bs ++ c'.rest
  pos_eq : c'.pos = c.pos + bs.length

variable {c c' c1 : Cursor} {bs bs' : List UInt8} {n : ℕ}

theorem Passed.nil (c : Cursor) : Passed c [] c := ⟨rfl, rfl⟩

theorem Passed.append (h : Passed c bs c1) (h' : Passed c1 bs' c') : Passed c (bs ++ bs') c' where
  rest_eq := by rw [h.rest_eq, h'.rest_eq, append_assoc]
  pos_eq := by rw [h'.pos_eq, h.pos_eq, length_append, add_assoc]

theorem Passed.length_rest (h : Passed c bs c') : c.rest.length = bs.length + c'.rest.length := by
  rw [h.rest_eq, length_append]

theorem passed_take (hn : n ≤ c.rest.length) (h : (take n : Decoder ε _) c = .ok (bs, c')) :
    Passed c bs c' ∧ bs.length = n := by
  obtain ⟨rfl, rfl⟩ := Prod.mk.inj (Except.ok.inj h)
  have hlen := length_take_of_le hn
  exact ⟨⟨(take_append_drop n c.rest).symm, by rw [hlen]⟩, hlen⟩

theorem passed_takeLE (hn : n ≤ c.rest.length) (h : (take n : Decoder ε _) c = .ok (bs, c')) :
    Passed c (encodeLE n (decodeLE bs)) c' ∧ decodeLE bs < 256 ^ n ∧
      c.rest.length = n + c'.rest.length := by
  obtain ⟨hpassed, rfl⟩ := passed_take hn h
  rw [encodeLE_decodeLE]
  exact ⟨hpassed, decodeLE_lt bs, hpassed.length_rest⟩

theorem passed_u32 {x : UInt32} (hn : 4 ≤ c.rest.length) (h : (u32 : Decoder ε _) c = .ok (x, c')) :
    Passed c (encodeLE 4 x.toNat) c' ∧ c.rest.length = 4 + c'.rest.length := by
  obtain ⟨bs, htake, rfl⟩ := map_eq_ok_iff.1 h
  obtain ⟨hpassed, hlt, hleft⟩ := passed_takeLE hn htake
  rw [UInt32.toNat_ofNat_of_lt' hlt]
  exact ⟨hpassed, hleft⟩

theorem passed_u64 {x : UInt64} (hn : 8 ≤ c.rest.length) (h : (u64 : Decoder ε _) c = .ok (x, c')) :
    Passed c (encodeLE 8 x.toNat) c' ∧ c.rest.length = 8 + c'.rest.length := by
  obtain ⟨bs, htake, rfl⟩ := map_eq_ok_iff.1 h
  obtain ⟨hpassed, hlt, hleft⟩ := passed_takeLE hn htake
  rw [UInt64.toNat_ofNat_of_lt' hlt]
  exact ⟨hpassed, hleft⟩

theorem Decodes.inj {a' : α} {enc' post post' : List UInt8} (hd : Decodes d a enc)
    (hd' : Decodes d a' enc') (h : enc ++ post = enc' ++ post')
    (hlt : (enc ++ post).length < 2 ^ 64) : a = a' ∧ post = post' ∧ post.length < 2 ^ 64 := by
  have hlt' := h ▸ hlt
  rw [length_append] at hlt hlt'
  have hread := hd 0 post (by omega)
  rw [h, hd' 0 post' (by omega)] at hread
  obtain ⟨rfl, hcursor⟩ := Prod.mk.inj (Except.ok.inj hread)
  exact ⟨rfl, (Cursor.mk.inj hcursor).2.symm, by omega⟩

theorem Decodes.flatMap_inj {g : β → α} {enc : β → List UInt8} {post post' : List UInt8}
    (hd : ∀ x, Decodes d (g x) (enc x)) {xs ys : List β} (hle : xs.length ≤ ys.length)
    (h : xs.flatMap enc ++ post = ys.flatMap enc ++ post')
    (hlt : (xs.flatMap enc ++ post).length < 2 ^ 64) :
    xs.map g = (ys.map g).take xs.length ∧ post = (ys.drop xs.length).flatMap enc ++ post' ∧
      post.length < 2 ^ 64 := by
  induction xs generalizing ys with
  | nil => exact ⟨rfl, h, hlt⟩
  | cons x xs ih =>
    obtain _ | ⟨y, ys⟩ := ys
    · cases hle
    · simp only [flatMap_cons, append_assoc] at h hlt
      obtain ⟨hhead, htail, hlt⟩ := (hd x).inj (hd y) h hlt
      obtain ⟨hmap, hpost⟩ := ih (Nat.le_of_succ_le_succ hle) htail hlt
      exact ⟨by simp [hhead, hmap], hpost⟩

end Decoding
