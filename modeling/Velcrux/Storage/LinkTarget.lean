import Velcrux.Storage.Path

/-!
# Where a link target leads

A target is resolved the way POSIX does it, with `/` as the only separator, and compared with the
reading of `validate_symlink_target`, which splits at backslashes too and trims the components.
-/

namespace Velcrux.Storage

def IsName (c : List Char) : Prop := c ≠ [] ∧ c ≠ ['.'] ∧ c ≠ ['.', '.']

instance (c : List Char) : Decidable (IsName c) := inferInstanceAs (Decidable (_ ∧ _))

def resolveTarget : List (List Char) → List (List Char) → Option (List (List Char))
  | stack, [] => some stack
  | stack, c :: rest =>
    if c = [] ∨ c = ['.'] then resolveTarget stack rest
    else if c = ['.', '.'] then if stack = [] then none else resolveTarget stack.dropLast rest
    else resolveTarget (stack ++ [c]) rest

variable (link : VPath) (t : String)

namespace VPath

def parentDir : List (List Char) := (link.str.toList.splitOn '/').dropLast

def StaysInside : Prop :=
  ∀ r, validateSymlinkTarget link t = .ok r →
    resolveTarget link.parentDir (t.toList.splitOn '/') ≠ none

end VPath

def ClimbsAbove (depth : ℕ) (components : List (List Char)) : Prop :=
  ∃ first, first <+: components ∧
    depth + first.countP (IsName ·) < first.countP (· = ['.', '.'])

def VPath.shownParent : List (List Char) :=
  (link.parentDir.map trim).filter fun c => c ≠ [] ∧ c ≠ ['.']

def shownComponents : List (List Char) :=
  (t.toList.splitOnP fun c => c = '/' || c = '\\').map trim

def RelativeTarget : Prop :=
  t.toList ≠ [] ∧ ¬ (t.toList.any fun c => c.toNat < 0x20 || c.toNat == 0x7f) ∧
    ¬ (t.toList.head? = some '/' ∨ t.toList.head? = some '\\') ∧
    ¬ ((t.toList.head?.any fun c => c.utf8Size = 1) ∧ t.toList[1]? = some ':')

def TargetFits : Prop :=
  (∀ c ∈ shownComponents t, IsName c → byteLen c ≤ maxPathComponent) ∧
    ∀ stack, resolveTarget link.shownParent (shownComponents t) = some stack →
      byteLen (['/'].intercalate stack) ≤ maxPathTotal

def HiddenClimb : Prop :=
  ClimbsAbove link.parentDir.length (t.toList.splitOn '/') ∧
    ¬ ClimbsAbove link.shownParent.length (shownComponents t) ∧ RelativeTarget t ∧ TargetFits link t

end Velcrux.Storage
