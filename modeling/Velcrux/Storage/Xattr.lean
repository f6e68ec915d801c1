import Velcrux.Wire.Basic

/-!
# Extended attributes in sidecar files

`encode_xattrs_canonical` and `decode_xattrs_canonical` (`storage/mod`).
-/

namespace Velcrux.Storage

open Wire Varint

def xattrSuffix : String := ".velcrux-xattr"

def encodeXattrsCanonical (xattrs : List (String × Bytes)) : Bytes :=
  encodeVarint xattrs.length ++
    xattrs.flatMap fun x => strField x.1 ++ (encodeVarint x.2.length ++ x.2)

def xattrPiece (buf : Bytes) (offset : ℕ) (truncated : String) : Except Failure (Bytes × ℕ) :=
  match readVarint (buf.drop offset) with
  | .error e => .error (.error (.protocol e))
  | .ok (len, consumed) =>
    let start := offset + consumed
    let stop := (start + len) % 2 ^ 64
    if buf.length < stop then .error (.error (.protocol (.malformed truncated)))
    else if stop < start then .error (.panic "slice index starts behind its end")
    else .ok ((buf.drop start).take (stop - start), stop)

def xattrLoop (buf : Bytes) : ℕ → ℕ → Except Failure (List (String × Bytes))
  | 0, _ => .ok []
  | count + 1, offset => do
    let (nameBytes, offset) ← xattrPiece buf offset "truncated xattr sidecar name"
    match fromUtf8 nameBytes with
    | none => .error (.error (.protocol (.malformed "xattr sidecar name not UTF-8")))
    | some name =>
      let (val, offset) ← xattrPiece buf offset "truncated xattr sidecar val"
      let later ← xattrLoop buf count offset
      return (name, val) :: later

/-- Offsets are computed in a `usize`, so that a length near `2 ^ 64` wraps around and the slice
that follows panics. -/
def decodeXattrsCanonical (buf : Bytes) : Except Failure (List (String × Bytes)) :=
  if buf = [] then .ok []
  else
    match readVarint buf with
    | .error e => .error (.error (.protocol e))
    | .ok (count, consumed) =>
      if isizeMax < count * 48 then .error (.panic "capacity overflow")
      else xattrLoop buf count consumed

def sidecarXattrs (content : Option Bytes) : Except Failure (List (String × Bytes)) :=
  match content with
  | none => .ok []
  | some buf =>
    match decodeXattrsCanonical buf with
    | .ok xattrs => .ok xattrs
    | .error (.error _) => .ok []
    | .error (.panic message) => .error (.panic message)

end Velcrux.Storage
