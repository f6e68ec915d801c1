import Velcrux.Storage.Path

/-!
# Paths of deletions

`DeleteGuardrails::validate_deletion_path` (`sync/plan`), on paths as texts: `Path::components` and
`Path::join` are those of a Unix system.
-/

namespace Velcrux.Sync

inductive DeleteSafetyError where
  | pathEscapeAttempt (path : String)
  | protectedPath (path : String)
deriving DecidableEq

inductive PathComponent where
  | rootDir
  | curDir
  | parentDir
  | normal (name : List Char)
deriving DecidableEq

def pathNames (pieces : List (List Char)) : List (List Char) :=
  pieces.filter fun piece => piece ≠ [] ∧ piece ≠ ['.']

def pathComponents (path : List Char) : List PathComponent :=
  (if path.head? = some '/' then [.rootDir]
    else if (path.splitOn '/').head? = some ['.'] then [.curDir] else []) ++
    (pathNames (path.splitOn '/')).map fun name =>
      if name = ['.', '.'] then .parentDir else .normal name

def joinPath (root rel : List Char) : List Char :=
  if rel.head? = some '/' then rel
  else if root = [] ∨ root.getLast? = some '/' then root ++ rel
  else root ++ '/' :: rel

variable (relPath : String)

def cleanPath : List Char :=
  (trim relPath.toList).map fun c => if c = '\\' then '/' else c

def protectedDirs : List (List Char) :=
  [".velcrux-staging".toList, ".velcrux-chunks".toList, ".git".toList]

def validateDeletionPath (dstRoot : List Char) : Except DeleteSafetyError (List Char) :=
  let clean := cleanPath relPath
  if clean = [] ∨ clean = ['.'] ∨ clean = ['.', '.'] ∨ clean.head? = some '/' then
    .error (.pathEscapeAttempt relPath)
  else if protectedDirs.any fun dir => dir.isPrefixOf clean then .error (.protectedPath relPath)
  else if (pathComponents clean).any fun c => c = .parentDir ∨ c = .rootDir then
    .error (.pathEscapeAttempt relPath)
  else .ok (joinPath dstRoot clean)

def plainComponents (path : List Char) : List PathComponent :=
  (pathComponents path).filter fun c => c ≠ .curDir

def StaysBelow (dstRoot : List Char) : Prop :=
  ∀ q, validateDeletionPath relPath dstRoot = .ok q →
    ∃ name rest, plainComponents q = plainComponents dstRoot ++ (name :: rest).map .normal ∧
      name ∉ protectedDirs

def Dotted : Prop :=
  ∃ tail, (cleanPath relPath).splitOn '/' = ['.'] :: tail ∧ tail ≠ [] ∧
    ['.', '.'] ∉ pathNames tail ∧ ∀ name, (pathNames tail).head? = some name → name ∈ protectedDirs

end Velcrux.Sync
