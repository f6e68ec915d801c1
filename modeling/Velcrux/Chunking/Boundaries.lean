import Velcrux.Chunking.Engine

/-!
# All boundaries of an input

A chunker is pushed one read buffer after another and then finished. Two inputs are compared from a
cut on by the boundaries and the chunks behind it.
-/

namespace Velcrux.Chunking

def Chunker.pushAll (c : Chunker) : List Bytes → Except VelcruxError (List ChunkBoundary)
  | [] => c.finish.map Option.toList
  | buf :: bufs =>
    match c.push buf with
    | .error e => .error e
    | .ok (c, found) => (pushAll c bufs).map (found ++ ·)

def Chunker.pushEach (c : Chunker) : List Bytes → Except VelcruxError (Chunker × List ChunkBoundary)
  | [] => .ok (c, [])
  | buf :: bufs =>
    match c.push buf with
    | .error e => .error e
    | .ok (c, found) => (pushEach c bufs).map fun r => (r.1, found ++ r.2)

/-- The chunks of an input are at most `max` long, and at least `min` but for the one that `finish`
returns. -/
def SizesBounded (mode : ChunkMode) (params : ChunkParams) (bufs : List Bytes) : Prop :=
  ∃ c found last, (createChunker mode params).pushEach bufs = .ok (c, found) ∧ c.finish = .ok last ∧
    (∀ b ∈ found ++ last.toList, b.length ≤ params.max) ∧ ∀ b ∈ found, params.min ≤ b.length

def Contiguous (off : ℕ) : List ChunkBoundary → Prop
  | [] => True
  | b :: bs => b.offset = off ∧ Contiguous b.endOff bs

def boundariesFrom (off : ℕ) (bs : List ChunkBoundary) : List ChunkBoundary :=
  bs.filter fun b => off ≤ b.offset

def ChunkBoundary.relativeTo (off : ℕ) (b : ChunkBoundary) : ChunkBoundary :=
  ⟨b.offset - off, b.length⟩

def ChunkBoundary.bytesIn (input : Bytes) (b : ChunkBoundary) : Bytes :=
  (input.drop b.offset).take b.length

end Velcrux.Chunking
