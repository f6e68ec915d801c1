import Velcrux.Auth.LongestGrant
import Velcrux.Foundations.Confinement
import Velcrux.Storage.Tree

/-!
# One identity and the files of another

The requests of one identity on the storage tree. The authorizer looks at the path as it is written;
the backend opens it through the file system.
-/

namespace Velcrux.Session

open Posix Storage
open Auth (FileAuthorizer Identity trimSlashes)

/-- A byte with whether it came from under a prefix that the identity has no permissions for. -/
structure MarkedByte where
  value : UInt8
  secret : Bool
deriving DecidableEq

abbrev MarkedData := List MarkedByte

inductive UploadPart where
  | sent (bytes : Bytes)
  | copied (offset length : ℕ)

def assemble (base : MarkedData) (parts : List UploadPart) : MarkedData :=
  parts.flatMap fun
    | .sent bytes => bytes.map fun b => ⟨b, false⟩
    | .copied offset length => (base.drop offset).take length

inductive TenantRequest where
  | upload (transferId : TransferId) (path : String) (parts : List UploadPart)
  | download (path : String)
  | symlink (path target : String)
  | hardlink (src dst : String)

inductive TenantReply where
  | committed
  | data (bytes : MarkedData)
  | notFound
  | invalidPath
  | failed
deriving DecidableEq

structure Tenancy where
  authorizer : FileAuthorizer
  identity : Identity
  layout : LocalLayout
  foreign : List String

namespace Tenancy

variable (t : Tenancy)

def answer (r : FileSystem MarkedData × Except BackendError Unit) :
    FileSystem MarkedData × TenantReply :=
  match r with
  | (fs, .error _) => (fs, .failed)
  | (fs, .ok _) => (fs, .committed)

variable (fs : FileSystem MarkedData)

def upload (transferId : TransferId) (dst : VPath)
    (parts : List UploadPart) : FileSystem MarkedData × TenantReply :=
  -- without a file at the destination there is nothing to copy
  let base := (t.layout.openRead fs dst).toOption.getD []
  match t.layout.stage fs transferId dst (assemble base parts) with
  | (fs, .error _) => (fs, .failed)
  | (fs, .ok _) => answer (t.layout.commit fs transferId dst)

def download (src : VPath) : TenantReply :=
  match t.layout.stat fs src with
  | .error _ => .failed
  | .ok false => .notFound
  | .ok true =>
    match t.layout.openRead fs src with
    | .error _ => .failed
    | .ok bytes => .data bytes

def handle : TenantRequest → FileSystem MarkedData × TenantReply
  | .upload transferId path parts =>
    match t.authorizer.check t.identity .upload path with
    | .error _ => (fs, .notFound)
    | .ok dst => t.upload fs transferId dst parts
  | .download path =>
    match t.authorizer.check t.identity .download path with
    | .error _ => (fs, .notFound)
    | .ok src => (fs, t.download fs src)
  | .symlink path target =>
    match t.authorizer.check t.identity .upload path with
    | .error _ => (fs, .notFound)
    | .ok dst =>
      match VPath.validateSymlinkTarget dst target with
      | .error _ => (fs, .invalidPath)
      | .ok _ => answer (t.layout.createSymlink fs dst target)
  | .hardlink srcPath dstPath =>
    match t.authorizer.check t.identity .upload srcPath with
    | .error _ => (fs, .notFound)
    | .ok src =>
      match t.authorizer.check t.identity .upload dstPath with
      | .error _ => (fs, .notFound)
      | .ok dst =>
        match t.layout.stat fs src with
        | .ok true => answer (t.layout.createHardlink fs dst src)
        | _ => (fs, .notFound)

def run : FileSystem MarkedData → List TenantRequest → FileSystem MarkedData × List TenantReply
  | fs, [] => (fs, [])
  | fs, r :: requests =>
    let (fs, reply) := t.handle fs r
    let (fs, replies) := run fs requests
    (fs, reply :: replies)

/-! ## The contract -/

def names (path : String) : Path := (Auth.components path).map String.ofList

def IsHome (home : Path) : Prop :=
  ∃ g ∈ t.authorizer.grants, g.identity = t.identity.name ∧ home = t.layout.root ++ names g.pathPrefix

def Own (q : Path) : Prop := ∃ home, t.IsHome home ∧ home <+: q

def Foreign (q : Path) : Prop := t.layout.root ++ t.foreign <+: q

def Apart (p q : Path) : Prop := ¬ p <+: q ∧ ¬ q <+: p

def Disjoint : Prop := ∀ home, t.IsHome home → Apart home (t.layout.root ++ t.foreign)

structure Fresh (fs : FileSystem MarkedData) : Prop where
  no_links : ∀ q target, fs.node q ≠ some (.link target)
  marked : ∀ q bytes, fs.node q = some (.file bytes) → ∀ b ∈ bytes, (b.secret = true ↔ t.Foreign q)

def Isolated (requests : List TenantRequest) : Prop :=
  (∀ bytes, .data bytes ∈ (t.run fs requests).2 → ∀ b ∈ bytes, b.secret = false) ∧
    ∀ q, t.Foreign q → (t.run fs requests).1.node q = fs.node q

/-! ## The condition -/

def StagingApart : Prop :=
  Apart t.layout.staging (t.layout.root ++ t.foreign) ∧
    ∀ home, t.IsHome home → Apart t.layout.staging home

def StaysInside (dst : VPath) (target : String) : Prop :=
  ∀ place, fs.resolve false (t.layout.resolve dst.str) = .ok place → Contained t.Own place.path target

def LinksInside : TenantRequest → Prop
  | .symlink path target =>
    ∀ dst fs', t.authorizer.check t.identity .upload path = .ok dst →
      LocalLayout.clearSite fs (t.layout.resolve dst.str) = .ok fs' → t.StaysInside fs' dst target
  | .hardlink srcPath dstPath =>
    ∀ src dst fs' target, t.authorizer.check t.identity .upload srcPath = .ok src →
      t.authorizer.check t.identity .upload dstPath = .ok dst →
      LocalLayout.clearSite fs (t.layout.resolve dst.str) = .ok fs' →
      fs'.lstat (t.layout.resolve src.str) = .ok (.link target) → t.StaysInside fs' dst target
  | _ => True

def LinksInsideRun : FileSystem MarkedData → List TenantRequest → Prop
  | _, [] => True
  | fs, r :: requests => t.LinksInside fs r ∧ LinksInsideRun (t.handle fs r).1 requests

end Tenancy

end Velcrux.Session
