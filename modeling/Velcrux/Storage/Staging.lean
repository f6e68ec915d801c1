import Velcrux.Foundations.ByteFile
import Velcrux.Util
import Velcrux.Error

/-!
# Staging files

How `LocalFilesystemBackend` opens the staging file of a transfer. The content of a file is the list
of its bytes; opening says what the file holds afterwards.
-/

namespace Velcrux.Storage

open ByteFile

structure LocalBackend where
  minFreeSpace : ℕ
  preallocate : Bool
deriving DecidableEq

namespace LocalBackend

variable (be : LocalBackend)

/-- The free-space check at the start of `open_staging_resumable`; `avail` is the answer of
`available_space`, `none` when it failed. -/
def spaceCheck (avail : Option ℕ) (sizeHint : ℕ) : Except VelcruxError Unit :=
  if (0 < be.minFreeSpace ∨ be.preallocate) ∧ 0 < sizeHint then
    match avail with
    | some a =>
      let required := saturatingAdd sizeHint be.minFreeSpace
      if a < required then
        .error (.protocol (.diskFull
          s!"insufficient disk space: available {a} B < required {required} B (size_hint {sizeHint} B + min_free_space {be.minFreeSpace} B)"))
      else .ok ()
    | none => .ok ()
  else .ok ()

/-- What the staging file holds once it is open: it is truncated unless an existing one is resumed,
and brought to the hinted size when blocks are preallocated or the upload is a fresh one. -/
def openedContent (existing : Option Bytes) (sizeHint : ℕ) (resumed : Bool) : Bytes :=
  let content := if resumed then existing.getD [] else []
  if be.preallocate ∧ 0 < sizeHint then setLen content (Nat.max content.length sizeHint)
  else if 0 < sizeHint ∧ !resumed then setLen content sizeHint
  else content

def openStagingResumable (avail : Option ℕ) (existing : Option Bytes)
    (sizeHint : ℕ) (resumed : Bool) : Except VelcruxError Bytes :=
  (be.spaceCheck avail sizeHint).map fun _ => be.openedContent existing sizeHint resumed

end LocalBackend

end Velcrux.Storage
