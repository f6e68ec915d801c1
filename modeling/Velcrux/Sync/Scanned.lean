import Velcrux.Foundations.SortedMap
import Velcrux.Manifest.Entry

/-!
# Scanned entries

`ScannedEntry` (`sync/directory`), and the inventory of a directory: a map from paths to entries.
-/

namespace Velcrux.Sync

open Manifest Wire

structure ScannedEntry where
  size : UInt64
  hash : Hash
  isSymlink : Bool
  symlinkTarget : Option String
  hardlinkTarget : Option String
  xattrs : List (String × Bytes)
  mode : UInt32
  mtimeSec : Int64
  mtimeNsec : UInt32
deriving DecidableEq

namespace ScannedEntry

def file (size : UInt64) (hash : Hash) : ScannedEntry :=
  ⟨size, hash, false, none, none, [], 0, 0, 0⟩

def symlink (H : HashFn) (target : String) : ScannedEntry :=
  ⟨UInt64.ofNat (utf8 target).length, H (utf8 target), true, some target, none, [], 0, 0, 0⟩

def hardlink (size : UInt64) (hash : Hash) (target : String) : ScannedEntry :=
  ⟨size, hash, false, none, some target, [], 0, 0, 0⟩

def withAttributes (s : ScannedEntry) (e : FileEntry) : ScannedEntry :=
  { s with mode := e.mode, mtimeSec := e.mtimeSec, mtimeNsec := e.mtimeNsec, xattrs := e.xattrs }

def ofFileEntry (H : HashFn) (e : FileEntry) : ScannedEntry :=
  if e.flags.fileType = .symlink then
    (symlink H (e.symlinkTarget.getD "")).withAttributes e
  else if e.flags.isHardlink then
    (hardlink e.size e.fileHash (e.hardlinkTarget.getD "")).withAttributes e
  else (file e.size e.fileHash).withAttributes e

end ScannedEntry

abbrev DirectoryInventory := SortedMap String ScannedEntry

end Velcrux.Sync
