import Velcrux.Foundations.Decoding
import Velcrux.Foundations.Varint
import Velcrux.Util
import Velcrux.Error

/-!
# The fields of wire messages

The pieces that the payload codecs of `protocol/message` are made of. A vector cannot hold more than
`isize::MAX` bytes, and `usize` has 64 bits.
-/

namespace Velcrux.Wire

open Decoding Varint LittleEndian

abbrev PayloadDecoder := Decoder ProtocolError

def malformed (detail : String) : Failure := .error (.protocol (.malformed detail))

def payload (fields : List Bytes) : Except Failure Bytes :=
  if isizeMax < fields.flatten.length then .error (.panic "capacity overflow")
  else .ok fields.flatten

def checkField (bad : Prop) [Decidable bad] (detail : String) : Except Failure Unit :=
  if bad then .error (malformed detail) else .ok ()

def utf8 (s : String) : Bytes := s.toByteArray.data.toList

def fromUtf8 (bs : Bytes) : Option String := String.fromUTF8? ⟨bs.toArray⟩

def strField (s : String) : Bytes := encodeVarint (utf8 s).length ++ utf8 s

def u16Field (x : UInt16) : Bytes := encodeLE 2 x.toNat

def u32Field (x : UInt32) : Bytes := encodeLE 4 x.toNat

def u64Field (x : UInt64) : Bytes := encodeLE 8 x.toNat

def flagField (b : Bool) : Bytes := [if b then 1 else 0]

def zeros (n : ℕ) : Bytes := List.replicate n 0

def readVarint (buf : Bytes) : Except ProtocolError (ℕ × ℕ) :=
  match decodeVarint buf with
  | .ok r => .ok r
  | .error .empty => .error .empty
  | .error .overflow => .error .varintOverflow
  | .error .nonCanonical => .error .nonCanonicalVarint

def varint : PayloadDecoder ℕ := fun c =>
  (readVarint c.rest).map fun r => (r.1, ⟨c.pos + r.2, c.rest.drop r.2⟩)

def readUtf8 (n : ℕ) (notUtf8 : String) : PayloadDecoder String := do
  let bs ← take n
  ofOption (fromUtf8 bs) (.malformed notUtf8)

def readStr (overflow truncated notUtf8 : String) : PayloadDecoder String := do
  let n ← varint
  checkedAdd n (.malformed overflow)
  need n (.malformed truncated)
  readUtf8 n notUtf8

def readStrBefore (tail : ℕ) (overflow tailOverflow truncated notUtf8 : String) :
    PayloadDecoder String := do
  let n ← varint
  checkedAdd n (.malformed overflow)
  checkedAdd (n + tail) (.malformed tailOverflow)
  need (n + tail) (.malformed truncated)
  readUtf8 n notUtf8

def readTransferId (bad : String) : PayloadDecoder TransferId := do
  let bs ← take 16
  ofOption (TransferId.fromBytes bs) (.malformed bad)

def readHash (bad : String) : PayloadDecoder Hash := do
  let bs ← take 32
  ofOption (Hash.fromBytes bs) (.malformed bad)

def flagOf (b : UInt8) (bad : String) : Except ProtocolError Bool :=
  if b = 0 then .ok false else if b = 1 then .ok true else .error (.malformed bad)

def readFlag (bad : String) : PayloadDecoder Bool := do
  let b ← u8
  result (flagOf b bad)

def readIndices (truncated nonMonotonic : String) :
    ℕ → Option UInt64 → PayloadDecoder (List UInt64)
  | 0, _ => pure []
  | count + 1, prev => do
    need 1 (.malformed truncated)
    let idx ← varint
    let idx := UInt64.ofNat idx
    refuse (∃ p ∈ prev, idx ≤ p) (.malformed nonMonotonic)
    let later ← readIndices truncated nonMonotonic count (some idx)
    return idx :: later

def indicesField (indices : List UInt64) : Bytes := indices.flatMap fun i => encodeVarint i.toNat

end Velcrux.Wire
