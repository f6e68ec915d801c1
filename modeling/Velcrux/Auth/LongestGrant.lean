import Velcrux.Auth.Authorizer

/-!
# The longest matching grant

What `FileAuthorizer::check` is meant to decide: the path is valid, and a grant with the longest
prefix that covers it, component by component, carries what the operation requires.
-/

namespace Velcrux.Auth

open FileAuthorizer

open Storage (VPath)

def components (path : String) : List (List Char) :=
  if trimSlashes path = [] then [] else (trimSlashes path).splitOn '/'

def Grant.Covers (grant : Grant) (identity : Identity) (path : String) : Prop :=
  grant.identity = identity.name ∧ components grant.pathPrefix <+: components path

instance (grant : Grant) (identity : Identity) (path : String) :
    Decidable (grant.Covers identity path) :=
  inferInstanceAs (Decidable (_ ∧ _))

def longest (grants : List Grant) (identity : Identity) (path : String) : List Grant :=
  let covering := grants.filter fun g => g.Covers identity path
  covering.filter fun g =>
    covering.all fun g' => (components g'.pathPrefix).length ≤ (components g.pathPrefix).length

def Permitted (grants : List Grant) (identity : Identity) (op : Op) (rawPath : String)
    (vpath : VPath) : Prop :=
  VPath.validate rawPath = .ok vpath ∧ (∃ g ∈ grants, g.Covers identity rawPath) ∧
    ∃ g ∈ longest grants identity rawPath, g.permissions.has (requiredPerm op) = true

/-- **The contract.** The check decides as it is meant to, in every order of the grants, and a prefix
matches at component boundaries only. -/
structure FollowsLongest (a : FileAuthorizer) (identity : Identity) (op : Op) (rawPath : String) :
    Prop where
  decides : ∀ vpath, a.check identity op rawPath = .ok vpath ↔
    Permitted a.grants identity op rawPath vpath
  anyOrder : ∀ grants, grants.Perm a.grants →
    check ⟨grants⟩ identity op rawPath = a.check identity op rawPath
  boundaries : ∀ g ∈ a.grants, (prefixMatchLen g.pathPrefix (trimSlashes rawPath)).isSome = true ↔
    components g.pathPrefix <+: components rawPath

/-- The grants with the longest prefix agree: none of them allows the operation, or all of them do
and the path needs no trimming. A deletion by a sync asks for its own permission. -/
def Unambiguous (a : FileAuthorizer) (identity : Identity) (op : Op) (rawPath : String) : Prop :=
  (pathOf op rawPath).toOption = none ∨
  (∀ g ∈ longest a.grants identity rawPath,
    allows g.permissions op = false) ∨
  (∀ g ∈ longest a.grants identity rawPath, allows g.permissions op = true) ∧
    rawPath ≠ "" ∧ trimSlashes rawPath = rawPath.toList ∧
    (op = .syncDelete → ∃ g ∈ longest a.grants identity rawPath,
      g.permissions.has .syncDelete = true)

end Velcrux.Auth
