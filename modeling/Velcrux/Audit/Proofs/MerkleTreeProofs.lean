import Velcrux.Audit.MerkleTree
import Velcrux.Wire.Proofs.FieldProofs

/-!
# What audit proofs and audit roots prove

Proofs made by the tree verify, but the verifiers look neither at the index of a leaf nor at the
length of a path, and the neighbours of a target are found in sorted order while their indices count
insertions. The root binds the tree, not the list of records it was built from.
-/

namespace Velcrux.Audit

open List Wire LittleEndian

section Proofs

variable {δ : Type} {combine : δ → δ → δ} {level : List δ} {i : ℕ} {x : δ}

theorem getElem?_nextLevel (level : List δ) (k : ℕ) : (nextLevel combine level)[k]? =
    level[2 * k]?.map fun a => combine a (level[2 * k + 1]?.getD a) := by
  fun_induction nextLevel combine level generalizing k with
  | case1 a b rest ih =>
    cases k with
    | zero => rfl
    | succ k => simp [ih, Nat.mul_succ]
  | case2 a => cases k <;> simp [Nat.mul_succ]
  | case3 => simp

theorem parent_eq (h : level[i]? = some x) (d : δ) :
    (nextLevel combine level)[i / 2]? = some (climb combine x (proofStep level d i)) := by
  rw [getElem?_nextLevel]
  by_cases hi : i % 2 = 1
  · rw [show 2 * (i / 2) = i - 1 by omega, show i - 1 + 1 = i by omega, h, proofStep, if_pos hi]
    grind [climb]
  · rw [show 2 * (i / 2) = i by omega, h, proofStep, if_neg hi]
    grind [climb]

theorem topOf_pathOf (h : level[i]? = some x) :
    topOf combine level = some ((pathOf combine level i).foldl (climb combine) x) := by
  fun_induction pathOf combine level i generalizing x with
  | case1 a b rest i ih =>
    rw [topOf]
    exact ih (parent_eq h a)
  | case2 level i hshort =>
    obtain _ | ⟨a, _ | ⟨b, rest⟩⟩ := level
    · simp at h
    · cases i <;> simp_all [topOf]
    · exact absurd rfl (hshort a b rest)

variable [LinearOrder δ]

namespace MerkleAuditTree

variable (combine) (nullRoot : δ) (t : MerkleAuditTree δ)

def Complete : Prop := ∀ i < t.leaves.length, ∃ proof,
  t.generateInclusionProof combine nullRoot i = .ok proof ∧ verifyInclusionProof combine proof = true

def Sound : Prop := ∀ proof : AuditInclusionProof δ, proof.expectedRoot = t.root combine nullRoot →
  proof.treeSize = t.leaves.length → verifyInclusionProof combine proof = true →
  proof.leafIndex < t.leaves.length ∧ t.leaves[proof.leafIndex]? = some proof.leafHash

variable {combine nullRoot t}

theorem verify_pathOf (h : t.leaves[i]? = some x) (j n : ℕ) :
    verifyInclusionProof combine ⟨j, x, pathOf combine t.leaves i, t.root combine nullRoot, n⟩ := by
  rw [verifyInclusionProof, decide_eq_true_eq, root, topOf_pathOf h, Option.getD_some]

/-- **Inclusion proofs are complete, and no tree is sound.** The root proves itself with an empty
path, at any index. -/
theorem complete_not_sound (combine : δ → δ → δ) (nullRoot : δ) (t : MerkleAuditTree δ) :
    t.Complete combine nullRoot ∧ ¬ t.Sound combine nullRoot := by
  constructor
  · intro i hi
    have hleaf := List.getElem?_eq_getElem hi
    exact ⟨_, by rw [generateInclusionProof, hleaf], verify_pathOf hleaf ..⟩
  · intro hsound
    let root := t.root combine nullRoot
    have hroot := hsound ⟨t.leaves.length, root, [], root, t.leaves.length⟩ rfl rfl
    exact (hroot (by simp [verifyInclusionProof])).1.false

def oneLeaf (leaf : ℕ) : MerkleAuditTree ℕ := new.insertLeaf leaf 0 ⟨by simp, by simp [new]⟩

/-- The proof of the only leaf, with another index. -/
theorem not_sound_oneLeaf : ¬ ∃ combine, (oneLeaf 7).Sound combine 0 := by
  rintro ⟨combine, hsound⟩
  have hforged := hsound ⟨1, 7, [], 7, 1⟩ (by simp [root, oneLeaf, insertLeaf, new, topOf]) rfl rfl
  exact absurd hforged.1 (by decide)

/-! ## Exclusion -/

variable (combine) (nullRoot) (t) (target : δ)

def Excludes : Prop :=
  (t.leaves ≠ [] → target ∉ t.leaves → ∃ proof,
    t.generateExclusionProof combine nullRoot target = .ok proof ∧
      verifyExclusionProof combine proof = true) ∧
  (target ∈ t.leaves → ∀ proof, proof.targetHash = target →
    proof.expectedRoot = t.root combine nullRoot → verifyExclusionProof combine proof = false)

/-- The greatest leaf below the target was inserted right before the smallest leaf above it. -/
def Neighbours : Prop :=
  ∀ lower ∈ (t.sortedLeaves.takeWhile (·.1 < target)).getLast?,
    ∀ upper ∈ (t.sortedLeaves.dropWhile (·.1 < target)).head?, upper.2 = (lower.2 + 1) % 2 ^ 64

def OnlyItself : Prop :=
  t.root combine nullRoot = target ∧ ∀ a b, combine a b = target → a = target ∧ b = target

variable {combine nullRoot t target} {entry : δ × ℕ}

theorem onlyItself_iff : t.OnlyItself combine nullRoot target ↔
    ∀ (path : List (AuditProofStep δ)) x,
      path.foldl (climb combine) x = t.root combine nullRoot → x = target := by
  constructor
  · rintro ⟨hroot, hpair⟩ path
    rw [hroot]
    induction path using reverseRecOn with
    | nil => exact fun x h => h
    | append_singleton path step ih =>
      intro x h
      rw [foldl_append, foldl_cons, foldl_nil, climb] at h
      cases hdir : step.direction <;> simp only [hdir] at h
      · exact ih x (hpair _ _ h).2
      · exact ih x (hpair _ _ h).1
  · intro h
    have hroot := h [] _ rfl
    exact ⟨hroot, fun a b hab => ⟨h [⟨b, .right⟩] a (hab.trans hroot.symm),
      h [⟨a, .left⟩] b (hab.trans hroot.symm)⟩⟩

theorem excludes_iff_onlyItself (hin : target ∈ t.leaves) :
    t.Excludes combine nullRoot target ↔ t.OnlyItself combine nullRoot target := by
  rw [onlyItself_iff]
  constructor
  · rintro ⟨-, hsound⟩ path x hx
    by_contra hne
    let root := t.root combine nullRoot
    -- one bound is enough for the verifier
    rcases lt_or_gt_of_ne hne with hlt | hgt
    · have hno := hsound hin ⟨_, some ⟨0, x, path, root, 0⟩, none, root⟩ rfl rfl
      simp [verifyExclusionProof, verifyInclusionProof, root, hx, hlt] at hno
    · have hno := hsound hin ⟨_, none, some ⟨0, x, path, root, 0⟩, root⟩ rfl rfl
      simp [verifyExclusionProof, verifyInclusionProof, root, hx, hgt] at hno
  · refine fun honly => ⟨fun _ hout => absurd hin hout, ?_⟩
    rintro - ⟨_, lower, upper, _⟩ rfl rfl
    cases lower with
    | some lower => grind [verifyExclusionProof, verifyInclusionProof]
    | none => cases upper <;> grind [verifyExclusionProof, verifyInclusionProof]

variable (combine nullRoot t) in
@[simps]
def proofOf (entry : δ × ℕ) : AuditInclusionProof δ :=
  ⟨entry.2, entry.1, pathOf combine t.leaves entry.2, t.root combine nullRoot, t.leaves.length⟩

theorem getElem?_of_sorted (h : entry ∈ t.sortedLeaves) : t.leaves[entry.2]? = some entry.1 :=
  mem_zipIdx_iff_getElem?.mp (t.perm.mem_iff.mp h)

theorem boundProof_eq {bound : Option (δ × ℕ)} (h : ∀ entry ∈ bound, entry ∈ t.sortedLeaves) :
    t.boundProof combine nullRoot bound = .ok (bound.map (t.proofOf combine nullRoot)) := by
  cases bound with
  | none => rfl
  | some entry =>
    rw [boundProof, generateInclusionProof, getElem?_of_sorted (h entry rfl)]
    rfl

theorem lower_spec (h : entry ∈ (t.sortedLeaves.takeWhile (·.1 < target)).getLast?) :
    entry ∈ t.sortedLeaves ∧ entry.1 < target := by
  have hmem := mem_of_getLast? h
  exact ⟨takeWhile_subset _ hmem, by simpa using mem_takeWhile_imp hmem⟩

theorem upper_spec (hout : target ∉ t.leaves)
    (h : entry ∈ (t.sortedLeaves.dropWhile (·.1 < target)).head?) :
    entry ∈ t.sortedLeaves ∧ target < entry.1 := by
  have hmem := dropWhile_subset _ (mem_of_head? h)
  have hnot := head?_dropWhile_not (fun x : δ × ℕ => decide (x.1 < target)) t.sortedLeaves
  rw [h] at hnot
  refine ⟨hmem, lt_of_le_of_ne (by simpa using hnot) ?_⟩
  rintro rfl
  exact hout (mem_of_getElem? (getElem?_of_sorted hmem))

theorem excludes_iff_neighbours (hout : target ∉ t.leaves) :
    t.Excludes combine nullRoot target ↔ t.Neighbours target := by
  rw [Excludes, and_iff_left fun h => absurd h hout]
  by_cases hne : t.leaves = []
  · have hnil : t.sortedLeaves = [] := by simpa [hne] using t.perm
    simp [hne, Neighbours, hnil]
  have hnot : target ∉ t.sortedLeaves.map Prod.fst := by simpa [(t.perm.map _).mem_iff] using hout
  have hsplit := takeWhile_append_dropWhile (p := (·.1 < target)) (l := t.sortedLeaves)
  rw [generateExclusionProof, if_neg hne, if_neg hnot, Neighbours,
    boundProof_eq fun _ h => (lower_spec h).1, boundProof_eq fun _ h => (upper_spec hout h).1]
  have hverify : ∀ entry ∈ t.sortedLeaves,
      verifyInclusionProof combine (t.proofOf combine nullRoot entry) = true :=
    fun entry h => verify_pathOf (getElem?_of_sorted h) ..
  have hmade : ∀ proof, (t.leaves ≠ [] → target ∉ t.leaves → ∃ made, Except.ok proof =
      (Except.ok made : Except String _) ∧ verifyExclusionProof combine made = true) ↔
      verifyExclusionProof combine proof = true := by simp [hne, hout]
  refine (hmade _).trans ?_
  cases hlo : (t.sortedLeaves.takeWhile (·.1 < target)).getLast? with
  | none =>
    cases hup : (t.sortedLeaves.dropWhile (·.1 < target)).head? with
    | none =>
      rw [getLast?_eq_none_iff.mp hlo, head?_eq_none_iff.mp hup] at hsplit
      exact absurd (by simpa [← hsplit] using t.perm.symm) hne
    | some up =>
      have hup := upper_spec hout hup
      simp [verifyExclusionProof, hverify up hup.1, hup.2]
  | some lo =>
    have hlo := lower_spec hlo
    cases hup : (t.sortedLeaves.dropWhile (·.1 < target)).head? with
    | none => simp [verifyExclusionProof, hverify lo hlo.1, hlo.2]
    | some up =>
      have hup := upper_spec hout hup
      simp [verifyExclusionProof, hverify _ hlo.1, hverify _ hup.1, hlo.2, hup.2]

/-- **What exclusion proofs exclude.** The proof for a hash that is no leaf verifies exactly if its
neighbours were inserted one after the other; a leaf cannot be excluded exactly if nothing but the
leaf itself leads to the root. -/
theorem exclusion_iff : t.Excludes combine nullRoot target ↔
    if target ∈ t.leaves then t.OnlyItself combine nullRoot target else t.Neighbours target := by
  split_ifs with hin
  · exact excludes_iff_onlyItself hin
  · exact excludes_iff_neighbours hin

/-- The leaves 3 and 1, in this order: 2 lies between them, but 3 was not inserted after 1. -/
theorem not_excludes_two : ∃ t : MerkleAuditTree ℕ, t.leaves = [3, 1] ∧ 2 ∉ t.leaves ∧
    ∀ combine, ¬ t.Excludes combine 0 2 := by
  refine ⟨(oneLeaf 3).insertLeaf 1 0 ⟨by simp, by simp [oneLeaf, insertLeaf, new]⟩, rfl, by decide, ?_⟩
  intro combine
  rw [excludes_iff_neighbours (by decide)]
  simp [Neighbours, oneLeaf, insertLeaf, new]

end MerkleAuditTree

end Proofs

/-! ## What the root binds -/

/-- What a leaf holds of a pair: nothing says where the transfer id ends. -/
def leafText (x : AuditRecord × Hash) : String × Hash × UInt64 × UInt64 × Hash :=
  (x.1.transferId ++ x.1.tenantId, x.1.manifestHash, x.1.totalBytes, x.1.completedAtSecs, x.2)

/-- `l` filled up to a row of length `2 ^ d`: a half of the row that has no element of its own is a
copy of the other half. -/
def row {α : Type} : ℕ → List α → List α
  | 0, l => l
  | d + 1, l =>
    if l.length ≤ 2 ^ d then row d l ++ row d l else l.take (2 ^ d) ++ row d (l.drop (2 ^ d))

def filled {α : Type} (l : List α) : List α := row (Nat.clog 2 l.length) l

variable (H : HashFn)

/-- What is hashed last for a row of `2 ^ d` leaves. -/
def rowInput : ℕ → List Bytes → Bytes
  | 0, r => auditLeafDomainTag ++ r.headD []
  | d + 1, r => nodeInput (H (rowInput d (r.take (2 ^ d)))) (H (rowInput d (r.drop (2 ^ d))))

def rowInputs : ℕ → List Bytes → List Bytes
  | 0, r => [rowInput H 0 r]
  | d + 1, r => rowInput H (d + 1) r ::
      (rowInputs d (r.take (2 ^ d)) ++ rowInputs d (r.drop (2 ^ d)))

def fieldsOf (records : List (AuditRecord × Hash)) : List Bytes :=
  records.map fun x => x.1.fields x.2

def rootInput (records : List (AuditRecord × Hash)) : Bytes :=
  if records = [] then emptyInput
  else rowInput H (Nat.clog 2 records.length) (filled (fieldsOf records))

/-- Everything that is hashed for the root. -/
def hashed (records : List (AuditRecord × Hash)) : List Bytes :=
  if records = [] then [emptyInput]
  else rowInputs H (Nat.clog 2 records.length) (filled (fieldsOf records))

def Binds (l l' : List (AuditRecord × Hash)) : Prop :=
  l ≠ l' → rootOfRecords H l ≠ rootOfRecords H l'

/-! ### The levels of a list make its filled row -/

section Rows

variable {α β : Type}

/-- The tree of depth `d` over a level, from the top. -/
def build (combine : α → α → α) : ℕ → List α → Option α
  | 0, level => level.head?
  | d + 1, level =>
    if level.length ≤ 2 ^ d then Option.map₂ combine (build combine d level) (build combine d level)
    else Option.map₂ combine (build combine d (level.take (2 ^ d)))
      (build combine d (level.drop (2 ^ d)))

theorem nextLevel_append (combine : α → α → α) {m : ℕ} {l l' : List α} (h : l.length = 2 * m) :
    nextLevel combine (l ++ l') = nextLevel combine l ++ nextLevel combine l' := by
  fun_induction nextLevel combine l generalizing m with
  | case1 a b rest ih =>
    rw [cons_append, cons_append, nextLevel, ih (m := m - 1) (by simp at h; omega), cons_append]
  | case2 a => simp at h; omega
  | case3 => rfl

theorem build_nextLevel (combine : α → α → α) (d : ℕ) {level : List α}
    (hlevel : level.length ≤ 2 ^ (d + 1)) :
    build combine (d + 1) level = build combine d (nextLevel combine level) := by
  induction d generalizing level with
  | zero =>
    match level, hlevel with
    | [], _ => rfl
    | [a], _ => rfl
    | [a, b], _ => rfl
  | succ d ih =>
    have hpow : 2 ^ (d + 1) = 2 * 2 ^ d := pow_succ' 2 d
    rw [build]
    conv_rhs => rw [build, length_nextLevel]
    by_cases hhalf : level.length ≤ 2 ^ (d + 1)
    · rw [if_pos hhalf, if_pos (by omega), ih hhalf]
    · rw [if_neg hhalf, if_neg (by omega), ih (by simp), ih (by simp; omega)]
      have hfull : (level.take (2 ^ (d + 1))).length = 2 * 2 ^ d := by simp; omega
      have hsplit : nextLevel combine (_ ++ level.drop (2 ^ (d + 1))) = _ :=
        nextLevel_append combine hfull
      rw [take_append_drop] at hsplit
      have hlen : (nextLevel combine (level.take (2 ^ (d + 1)))).length = 2 ^ d := by
        rw [length_nextLevel, hfull]
        omega
      rw [hsplit, take_left' hlen, drop_left' hlen]

theorem topOf_eq_build (combine : α → α → α) (level : List α) :
    topOf combine level = build combine (Nat.clog 2 level.length) level := by
  fun_induction topOf combine level with
  | case1 a b rest ih =>
    have hclog : Nat.clog 2 (a :: b :: rest).length =
        Nat.clog 2 (nextLevel combine (a :: b :: rest)).length + 1 := by
      rw [length_nextLevel]
      exact Nat.clog_of_two_le one_lt_two (by simp)
    rw [ih, hclog, build_nextLevel]
    rw [← hclog]
    exact Nat.le_pow_clog one_lt_two _
  | case2 a => simp [build]
  | case3 => simp [build]

theorem row_of_length {d : ℕ} {l : List α} (h : l.length = 2 ^ d) : row d l = l := by
  induction d generalizing l with
  | zero => rfl
  | succ d ih =>
    have hpow : 2 ^ (d + 1) = 2 * 2 ^ d := pow_succ' 2 d
    have := Nat.two_pow_pos d
    rw [row, if_neg (by omega), ih (by simp; omega), take_append_drop]

theorem map_row (f : α → β) (d : ℕ) (l : List α) : (row d l).map f = row d (l.map f) := by
  induction d generalizing l with
  | zero => rfl
  | succ d ih =>
    rw [row, row, length_map]
    split_ifs
    · rw [map_append, ih]
    · rw [map_append, ih, map_take, map_drop]

theorem length_row {d : ℕ} {l : List α} (hne : l ≠ []) (hl : l.length ≤ 2 ^ d) :
    (row d l).length = 2 ^ d := by
  induction d generalizing l with
  | zero => exact le_antisymm hl (length_pos_iff.mpr hne)
  | succ d ih =>
    have hpow : 2 ^ (d + 1) = 2 * 2 ^ d := pow_succ' 2 d
    rw [row]
    split_ifs with hhalf
    · rw [length_append, ih hne hhalf, hpow, two_mul]
    · rw [length_append, ih (ne_nil_of_length_pos (by simp; omega)) (by simp; omega)]
      simp
      omega

theorem length_filled {l : List α} (hne : l ≠ []) : (filled l).length = 2 ^ Nat.clog 2 l.length :=
  length_row hne (Nat.le_pow_clog one_lt_two _)

theorem map_eq_map_congr {f : α → β} {γ : Type} {g : α → γ} (h : ∀ a b, f a = f b ↔ g a = g b)
    (l l' : List α) : l.map f = l'.map f ↔ l.map g = l'.map g := by
  induction l generalizing l' with
  | nil => cases l' <;> simp
  | cons a l ih => cases l' <;> simp [h, ih]

end Rows

variable {H} {l l' : List (AuditRecord × Hash)} {d d' : ℕ} {r r' : List Bytes}

theorem build_rowInput {l : List Bytes} (hne : l ≠ []) (hl : l.length ≤ 2 ^ d) :
    build (combineHashes H) d (l.map fun b => H (auditLeafDomainTag ++ b)) =
      some (H (rowInput H d (row d l))) := by
  induction d generalizing l with
  | zero =>
    obtain ⟨a, rfl⟩ := length_eq_one_iff.mp (le_antisymm hl (length_pos_iff.mpr hne))
    rfl
  | succ d ih =>
    have hpow : 2 ^ (d + 1) = 2 * 2 ^ d := pow_succ' 2 d
    rw [build, row, length_map]
    split_ifs with hhalf
    · have hlen := length_row hne hhalf
      rw [ih hne hhalf, rowInput, take_left' hlen, drop_left' hlen]
      rfl
    · have hlen : (l.take (2 ^ d)).length = 2 ^ d := by simp; omega
      rw [← map_take, ← map_drop,
        ih (ne_nil_of_length_pos (by rw [hlen]; exact Nat.two_pow_pos d)) hlen.le,
        ih (ne_nil_of_length_pos (by simp; omega)) (by simp; omega), row_of_length hlen, rowInput,
        take_left' hlen, drop_left' hlen]
      rfl

theorem rootOfRecords_eq (l : List (AuditRecord × Hash)) :
    rootOfRecords H l = H (rootInput H l) := by
  rw [rootOfRecords, rootInput]
  split_ifs with hne
  · rw [hne]
    simp [topOf]
  · have hmap : (l.map fun x => x.1.commit H x.2) =
        (fieldsOf l).map fun b => H (auditLeafDomainTag ++ b) := by
      rw [fieldsOf, map_map]
      rfl
    have hlen : (fieldsOf l).length = l.length := length_map _
    rw [hmap, topOf_eq_build, length_map, build_rowInput (by simpa [fieldsOf] using hne)
      (Nat.le_pow_clog one_lt_two _), filled, hlen]
    rfl

theorem rowInput_mem (d : ℕ) (r : List Bytes) : rowInput H d r ∈ rowInputs H d r := by
  cases d <;> exact mem_cons_self

theorem rootInput_mem (l : List (AuditRecord × Hash)) : rootInput H l ∈ hashed H l := by
  rw [rootInput, hashed]
  split_ifs
  · exact mem_cons_self
  · exact rowInput_mem _ _

theorem tags_ne {x y : Bytes} : auditLeafDomainTag ++ x ≠ auditNodeDomainTag ++ y := by
  intro h
  exact absurd (append_inj h (by decide)).1 (by decide)

theorem rowInput_ne_empty (d : ℕ) (r : List Bytes) : rowInput H d r ≠ emptyInput := by
  cases d with
  | zero => exact tags_ne
  | succ d =>
    intro h
    have hlen := congrArg length (append_cancel_left h)
    rw [length_append, Hash.length_eq, Hash.length_eq] at hlen
    exact absurd hlen (by decide)

theorem row_eq (hH : Set.InjOn H {b | b ∈ rowInputs H d r ++ rowInputs H d' r'})
    (hr : r.length = 2 ^ d) (hr' : r'.length = 2 ^ d') (h : rowInput H d r = rowInput H d' r') :
    r = r' := by
  induction d generalizing d' r r' with
  | zero =>
    cases d' with
    | zero =>
      obtain ⟨a, rfl⟩ := length_eq_one_iff.mp hr
      obtain ⟨b, rfl⟩ := length_eq_one_iff.mp hr'
      exact congrArg (fun x => [x]) (append_cancel_left h)
    | succ d' => exact absurd h tags_ne
  | succ d ih =>
    cases d' with
    | zero => exact absurd h.symm tags_ne
    | succ d' =>
      have hpow : ∀ n, 2 ^ (n + 1) = 2 * 2 ^ n := pow_succ' 2
      rw [hpow] at hr hr'
      have hhalf : ∀ {s s' : List Bytes}, s.length = 2 ^ d → s'.length = 2 ^ d' →
          (∀ b ∈ rowInputs H d s ++ rowInputs H d' s', b ∈ rowInputs H (d + 1) r ++
            rowInputs H (d' + 1) r') → H (rowInput H d s) = H (rowInput H d' s') → s = s' := by
        intro s s' hs hs' hsub heq
        have hH' := hH.mono hsub
        exact ih hH' hs hs' (hH' (mem_append_left _ (rowInput_mem d s))
          (mem_append_right _ (rowInput_mem d' s')) heq)
      obtain ⟨hleft, hright⟩ := Hash.inj_of_append (append_cancel_left h)
      have hright := (Hash.inj_of_append (congrArg (· ++ []) hright)).1
      rw [← take_append_drop (2 ^ d) r, ← take_append_drop (2 ^ d') r',
        hhalf (by simp; omega) (by simp; omega) (fun b hb => ?_) hleft,
        hhalf (by simp; omega) (by simp; omega) (fun b hb => ?_) hright] <;>
      · simp only [rowInputs, mem_append, mem_cons] at hb ⊢
        tauto

theorem u64Field_injective {x y : UInt64} (h : u64Field x = u64Field y) : x = y := by
  have hdecode := congrArg decodeLE h
  rw [u64Field, u64Field, decodeLE_encodeLE_of_lt x.toNat_lt, decodeLE_encodeLE_of_lt y.toNat_lt]
    at hdecode
  exact UInt64.toNat_inj.mp hdecode

theorem fields_eq (x : AuditRecord × Hash) : x.1.fields x.2 =
    utf8 (leafText x).1 ++ (leafText x).2.1.bytes ++ u64Field (leafText x).2.2.1 ++
      u64Field (leafText x).2.2.2.1 ++ (leafText x).2.2.2.2.bytes := by
  simp [AuditRecord.fields, leafText, utf8]

theorem fields_eq_iff (x y : AuditRecord × Hash) :
    x.1.fields x.2 = y.1.fields y.2 ↔ leafText x = leafText y := by
  rw [fields_eq, fields_eq]
  refine ⟨fun h => ?_, fun h => by rw [h]⟩
  have hhash : ∀ {a b : Hash}, a.bytes = b.bytes → a = b := fun h =>
    (Hash.inj_of_append (congrArg (· ++ []) h)).1
  obtain ⟨h, hsalt⟩ := append_inj' h (by simp)
  obtain ⟨h, hcompleted⟩ := append_inj' h (by simp)
  obtain ⟨h, htotal⟩ := append_inj' h (by simp)
  obtain ⟨htext, hmanifest⟩ := append_inj' h (by simp)
  exact Prod.ext (utf8_injective htext) (Prod.ext (hhash hmanifest) (Prod.ext
    (u64Field_injective htotal) (Prod.ext (u64Field_injective hcompleted) (hhash hsalt))))

theorem filled_fieldsOf_eq_iff : filled (fieldsOf l) = filled (fieldsOf l') ↔
    filled (l.map leafText) = filled (l'.map leafText) := by
  simp only [filled, fieldsOf, length_map, ← map_row]
  exact map_eq_map_congr fields_eq_iff _ _

theorem rootInput_eq_iff (hH : Set.InjOn H {b | b ∈ hashed H l ++ hashed H l'}) :
    rootInput H l = rootInput H l' ↔ filled (fieldsOf l) = filled (fieldsOf l') := by
  have hlen : ∀ {l : List (AuditRecord × Hash)}, l ≠ [] →
      (filled (fieldsOf l)).length = 2 ^ Nat.clog 2 l.length := fun {l} hne =>
    (length_filled (by simpa [fieldsOf] using hne)).trans (by rw [fieldsOf, length_map])
  have hnil : ∀ {l : List (AuditRecord × Hash)}, filled (fieldsOf l) = [] ↔ l = [] := by
    intro l
    refine ⟨fun h => by_contra fun hne => ?_, fun h => by simp [h, fieldsOf, filled, row]⟩
    exact absurd (hlen hne) (by rw [h, length_nil]; exact (Nat.two_pow_pos _).ne)
  rw [rootInput, rootInput]
  rw [hashed, hashed] at hH
  split_ifs at hH ⊢ with hl hl' hl'
  · simp [hl, hl']
  · rw [hnil.mpr hl, eq_comm (b := filled _), hnil]
    exact iff_of_false (rowInput_ne_empty _ _).symm hl'
  · rw [hnil.mpr hl', hnil]
    exact iff_of_false (rowInput_ne_empty _ _) hl
  · refine ⟨row_eq hH (hlen hl) (hlen hl'), fun h => ?_⟩
    have hclog := Nat.pow_right_injective le_rfl
      ((hlen hl).symm.trans ((congrArg length h).trans (hlen hl')))
    rw [h, hclog]

/-- **What the root binds.** Two lists of records have the same root exactly if what their leaves
hold fills up to the same row: the texts of the two identifiers run together, and the last records
may be copies that fill up the other list. -/
theorem binds_iff (hH : Set.InjOn H {b | b ∈ hashed H l ++ hashed H l'}) :
    Binds H l l' ↔ (l ≠ l' → filled (l.map leafText) ≠ filled (l'.map leafText)) := by
  refine imp_congr_right fun _ => not_congr ?_
  rw [← filled_fieldsOf_eq_iff, ← rootInput_eq_iff hH, rootOfRecords_eq, rootOfRecords_eq]
  exact ⟨hH (mem_append_left _ (rootInput_mem l)) (mem_append_right _ (rootInput_mem l')),
    congrArg H⟩

def auditRecord (transferId tenantId : String) : AuditRecord := ⟨transferId, tenantId, .zero, 0, 0⟩

def oneRecord : List (AuditRecord × Hash) := [(auditRecord "a" "t", .zero)]

def twoRecords : List (AuditRecord × Hash) := oneRecord ++ [(auditRecord "bb" "t", .zero)]

theorem binds_twoRecords : Binds lengthHash oneRecord twoRecords := by
  refine (binds_iff ?_).mpr fun _ => by decide
  have hinj : ∀ a ∈ hashed lengthHash oneRecord ++ hashed lengthHash twoRecords,
      ∀ b ∈ hashed lengthHash oneRecord ++ hashed lengthHash twoRecords,
        lengthHash a = lengthHash b → a = b := by
    decide +kernel
  exact fun a ha b hb h => hinj a ha b hb h

/-- Nothing says where the transfer id ends. -/
theorem not_binds_shifted : ¬ ∃ H, Binds H [(auditRecord "ab" "c", .zero)]
    [(auditRecord "a" "bc", .zero)] := by
  rintro ⟨H, h⟩
  refine h ?_ ?_
  · simp [auditRecord]
  · rfl

end Velcrux.Audit
