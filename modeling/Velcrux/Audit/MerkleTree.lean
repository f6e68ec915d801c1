import Velcrux.Wire.Basic

/-!
# The audit accumulator

`audit`: a Merkle tree over the commitments of transfer records, with proofs that a commitment is in
the tree and that one is not. Digests are of any ordered type, with a function that combines two of
them; in the code these are `Hash` and `combineHashes`.
-/

namespace Velcrux.Audit

open Wire List

inductive AuditProofDirection where
  | left
  | right

structure AuditProofStep (δ : Type) where
  sibling : δ
  direction : AuditProofDirection

structure AuditInclusionProof (δ : Type) where
  leafIndex : ℕ
  leafHash : δ
  path : List (AuditProofStep δ)
  expectedRoot : δ
  treeSize : ℕ

structure AuditExclusionProof (δ : Type) where
  targetHash : δ
  lowerBound : Option (AuditInclusionProof δ)
  upperBound : Option (AuditInclusionProof δ)
  expectedRoot : δ

section Levels

variable {δ : Type} (combine : δ → δ → δ)

def nextLevel : List δ → List δ
  | a :: b :: rest => combine a b :: nextLevel rest
  | [a] => [combine a a]
  | [] => []

@[simp] theorem length_nextLevel (level : List δ) :
    (nextLevel combine level).length = (level.length + 1) / 2 := by
  fun_induction nextLevel combine level <;> grind

def topOf : List δ → Option δ
  | a :: b :: rest => topOf (nextLevel combine (a :: b :: rest))
  | [a] => some a
  | [] => none
termination_by level => level.length
decreasing_by simp; omega

/-- The sibling of an odd last node is the node itself. -/
def proofStep (level : List δ) (default : δ) (i : ℕ) : AuditProofStep δ :=
  if i % 2 = 1 then ⟨level.getD (i - 1) default, .left⟩
  else ⟨level.getD (if i + 1 < level.length then i + 1 else i) default, .right⟩

def pathOf : List δ → ℕ → List (AuditProofStep δ)
  | a :: b :: rest, i => proofStep (a :: b :: rest) a i ::
      pathOf (nextLevel combine (a :: b :: rest)) (i / 2)
  | _, _ => []
termination_by level => level.length
decreasing_by simp; omega

def climb (current : δ) (step : AuditProofStep δ) : δ :=
  match step.direction with
  | .left => combine step.sibling current
  | .right => combine current step.sibling

variable [LinearOrder δ]

def verifyInclusionProof (proof : AuditInclusionProof δ) : Bool :=
  proof.path.foldl (climb combine) proof.leafHash = proof.expectedRoot

def verifyExclusionProof (proof : AuditExclusionProof δ) : Bool :=
  (proof.lowerBound.all fun lower => verifyInclusionProof combine lower &&
    lower.leafHash < proof.targetHash && lower.expectedRoot = proof.expectedRoot) &&
  (proof.upperBound.all fun upper => verifyInclusionProof combine upper &&
    proof.targetHash < upper.leafHash && upper.expectedRoot = proof.expectedRoot) &&
  (match proof.lowerBound, proof.upperBound with
    | some lower, some upper => upper.leafIndex = (lower.leafIndex + 1) % 2 ^ 64
    | lower, upper => lower.isSome || upper.isSome)

end Levels

/-- The leaves in the order of their insertion, and sorted, with the index of each. -/
structure MerkleAuditTree (δ : Type) [LinearOrder δ] where
  leaves : List δ
  sortedLeaves : List (δ × ℕ)
  sorted : sortedLeaves.Pairwise fun x y => x.1 ≤ y.1
  perm : sortedLeaves ~ leaves.zipIdx

namespace MerkleAuditTree

variable {δ : Type} [LinearOrder δ]

def new : MerkleAuditTree δ := ⟨[], [], .nil, .nil⟩

variable (t : MerkleAuditTree δ)

/-- What the binary search for `leaf` may return; with several matches, the position of any. -/
structure Position (leaf : δ) (pos : ℕ) : Prop where
  before : ∀ x ∈ t.sortedLeaves.take pos, x.1 ≤ leaf
  after : ∀ x ∈ t.sortedLeaves.drop pos, leaf ≤ x.1

def insertLeaf (leaf : δ) (pos : ℕ) (hpos : t.Position leaf pos) : MerkleAuditTree δ where
  leaves := t.leaves ++ [leaf]
  sortedLeaves := t.sortedLeaves.take pos ++ (leaf, t.leaves.length) :: t.sortedLeaves.drop pos
  sorted := by
    have hsorted := t.sorted
    rw [← take_append_drop pos t.sortedLeaves, pairwise_append] at hsorted
    refine pairwise_append.mpr ⟨hsorted.1, hsorted.2.1.cons hpos.after, fun x hx y hy => ?_⟩
    rcases mem_cons.mp hy with rfl | hy
    · exact hpos.before x hx
    · exact hsorted.2.2 x hx y hy
  perm := by
    rw [zipIdx_append, zero_add]
    refine perm_middle.trans (.trans (.cons _ ?_) (perm_append_singleton _ _).symm)
    rw [take_append_drop]
    exact t.perm

variable (combine : δ → δ → δ) (nullRoot : δ)

def root : δ := (topOf combine t.leaves).getD nullRoot

def generateInclusionProof (leafIndex : ℕ) : Except String (AuditInclusionProof δ) :=
  match t.leaves[leafIndex]? with
  | none => .error (s!"audit proof error: leaf index {leafIndex} out of bounds " ++
      s!"(tree size: {t.leaves.length})")
  | some leafHash => .ok ⟨leafIndex, leafHash, pathOf combine t.leaves leafIndex,
      t.root combine nullRoot, t.leaves.length⟩

def boundProof : Option (δ × ℕ) → Except String (Option (AuditInclusionProof δ))
  | none => .ok none
  | some entry => (t.generateInclusionProof combine nullRoot entry.2).map some

/-- The binary search for a hash that is not there ends between the smaller and the greater leaves. -/
def generateExclusionProof (target : δ) : Except String (AuditExclusionProof δ) :=
  if t.leaves = [] then .error "cannot generate exclusion proof on empty audit tree"
  else if target ∈ t.sortedLeaves.map Prod.fst then
    .error "target hash exists in the tree: cannot generate non-membership exclusion proof"
  else do
    let lower ← t.boundProof combine nullRoot (t.sortedLeaves.takeWhile (·.1 < target)).getLast?
    let upper ← t.boundProof combine nullRoot (t.sortedLeaves.dropWhile (·.1 < target)).head?
    return ⟨target, lower, upper, t.root combine nullRoot⟩

end MerkleAuditTree

structure AuditRecord where
  transferId : String
  tenantId : String
  manifestHash : Hash
  totalBytes : UInt64
  completedAtSecs : UInt64

def auditLeafDomainTag : Bytes := utf8 "velcrux-audit-leaf:v1"

def auditNodeDomainTag : Bytes := utf8 "velcrux-audit-node:v1"

def AuditRecord.fields (record : AuditRecord) (salt : Hash) : Bytes :=
  utf8 record.transferId ++ utf8 record.tenantId ++ record.manifestHash.bytes ++
    u64Field record.totalBytes ++ u64Field record.completedAtSecs ++ salt.bytes

variable (H : HashFn)

def AuditRecord.commit (record : AuditRecord) (salt : Hash) : Hash :=
  H (auditLeafDomainTag ++ record.fields salt)

def nodeInput (left right : Hash) : Bytes := auditNodeDomainTag ++ (left.bytes ++ right.bytes)

def combineHashes (left right : Hash) : Hash := H (nodeInput left right)

def emptyInput : Bytes := auditNodeDomainTag ++ utf8 "empty"

/-- The root after `insert_record` of every pair, in order. -/
def rootOfRecords (records : List (AuditRecord × Hash)) : Hash :=
  (topOf (combineHashes H) (records.map fun x => x.1.commit H x.2)).getD (H emptyInput)

end Velcrux.Audit
