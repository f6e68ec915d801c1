import Velcrux.Error
import Velcrux.Storage.Path

/-!
# Identities, grants and the file authorizer

`auth/mod` and `transport/identity`: who a peer is, and what a list of grants allows.
-/

namespace Velcrux.Auth

open Storage (VPath byteLen)

structure Identity where
  name : String
  issuerFingerprint : String
  certFingerprint : String
  serialHex : String
deriving DecidableEq

/-- The operation that is authorized. -/
inductive Op where
  | upload
  | download
  | list
  | delete
  | sync
  | resume
  | admin
  | syncDelete
deriving DecidableEq

structure PermSet where
  bits : UInt64
deriving DecidableEq

namespace PermSet

def has (s perm : PermSet) : Bool := s.bits &&& perm.bits ≠ 0

def delete : PermSet := ⟨0x08⟩

def admin : PermSet := ⟨0x40⟩

def syncDelete : PermSet := ⟨0x80⟩

end PermSet

def requiredPerm : Op → PermSet
  | .upload => ⟨0x01⟩
  | .download => ⟨0x02⟩
  | .list => ⟨0x04⟩
  | .delete => .delete
  | .sync => ⟨0x10⟩
  | .resume => ⟨0x20⟩
  | .admin => .admin
  | .syncDelete => .syncDelete

structure Grant where
  identity : String
  pathPrefix : String
  permissions : PermSet
deriving DecidableEq

def trimSlashes (s : String) : List Char :=
  ((s.toList.dropWhile (· = '/')).reverse.dropWhile (· = '/')).reverse

def prefixMatchLen (grantPrefix : String) (path : List Char) : Option ℕ :=
  let gp := trimSlashes grantPrefix
  if gp = [] then some 0
  else if path = gp then some (byteLen gp)
  else if gp <+: path ∧ (path.drop gp.length).head? = some '/' then some (byteLen gp)
  else none

structure FileAuthorizer where
  grants : List Grant

namespace FileAuthorizer

variable (a : FileAuthorizer)

/-- The grant with the longest prefix that covers the path, component by component, decides. -/
def bestGrant (identity : Identity) (path : List Char) :
    List Grant → Option (Grant × ℕ) → Option (Grant × ℕ)
  | [], best => best
  | grant :: grants, best =>
    if grant.identity ≠ identity.name then bestGrant identity path grants best
    else
      match prefixMatchLen grant.pathPrefix path with
      | none => bestGrant identity path grants best
      | some plen =>
        match best with
        | some (_, b) =>
          bestGrant identity path grants (if b < plen then some (grant, plen) else best)
        | none => bestGrant identity path grants (some (grant, plen))

def allows (permissions : PermSet) (op : Op) : Bool :=
  if op = .syncDelete then
    permissions.has .syncDelete || (permissions.has .admin && permissions.has .delete)
  else permissions.has (requiredPerm op)

def pathOf (op : Op) (rawPath : String) : Except ProtocolError VPath :=
  let trimmed := trimSlashes rawPath
  if trimmed = [] then
    if op = .sync ∨ op = .list then .ok ⟨""⟩ else .error .invalidPath
  else
    match VPath.validate (String.ofList trimmed) with
    | .ok v => .ok v
    | .error _ => .error .invalidPath

def check (identity : Identity) (op : Op) (rawPath : String) : Except ProtocolError VPath := do
  let vpath ← pathOf op rawPath
  match bestGrant identity (trimSlashes rawPath) a.grants none with
  | none => throw .permissionDenied
  | some (grant, _) => if allows grant.permissions op then pure vpath else throw .permissionDenied

end FileAuthorizer

end Velcrux.Auth
