import Velcrux.Chunking.Engine
import Velcrux.Sync.Bloom

/-!
# Local chunk stores

`LocalChunkStore`: chunks stored as files named by their digest, with a Bloom filter in memory in
front of the directory.
-/

namespace Velcrux.Storage

open Chunking Sync

abbrev ChunkDir := AList fun _ : Hash => Bytes

structure StoreEnv where
  H : HashFn
  sizing : Sizing

/-- The pins and the access times play no role for what a store answers. -/
structure LocalChunkStore where
  chunks : ChunkDir
  bloom : BloomFilter

namespace LocalChunkStore

variable (env : StoreEnv)

def rebuildBloom (chunks : ChunkDir) : BloomFilter :=
  chunks.keys.foldl BloomFilter.insert (BloomFilter.new env.sizing (max chunks.keys.length 1000))

def new (chunks : ChunkDir) : LocalChunkStore := ⟨chunks, rebuildBloom env chunks⟩

variable (store : LocalChunkStore)

def containsSync (h : Hash) : Bool :=
  store.bloom.contains h && (store.chunks.lookup h).isSome

/-- `put_sync`, and `put`. A chunk that is there is kept as it is; `fails` says whether writing the
partial file or renaming it fails. -/
def put (fails : Bool) (h : Hash) (data : Bytes) : LocalChunkStore × Except VelcruxError Unit :=
  if env.H data ≠ h then (store, .error (.protocol (.malformed "checksum mismatch")))
  else if (store.chunks.lookup h).isSome then (store, .ok ())
  else if fails then (store, .error .io)
  else (⟨store.chunks.insert h data, store.bloom.insert h⟩, .ok ())

def remove (h : Hash) : LocalChunkStore :=
  ⟨store.chunks.erase h, store.bloom⟩

def ingestLoop (fails : ℕ → Bool) (count i : ℕ) :
    LocalChunkStore → List Bytes → LocalChunkStore × Except VelcruxError ℕ
  | store, [] => (store, .ok count)
  | store, chunk :: rest =>
    match (ChunkDesc.of env.H chunk).hash with
    | none => ingestLoop fails count (i + 1) store rest
    | some hash =>
      match store.put env (fails i) hash chunk with
      | (store, .error e) => (store, .error e)
      | (store, .ok ()) => ingestLoop fails (count + 1) (i + 1) store rest

def ingestFileSync (fails : ℕ → Bool) (mode : ChunkMode)
    (params : ChunkParams) (reads : List Bytes) : LocalChunkStore × Except Failure ℕ :=
  match chunkReader mode params params.max reads with
  | .error e => (store, .error e)
  | .ok chunks =>
    match ingestLoop env fails 0 0 store (chunks.map Prod.snd) with
    | (store, .error e) => (store, .error (.error e))
    | (store, .ok count) => (store, .ok count)

variable {env}

theorem containsSync_put {store : LocalChunkStore} {h : Hash} {data : Bytes}
    (hh : env.H data = h) (hnew : store.chunks.lookup h = none) :
    (store.put env false h data).1.containsSync h = true := by
  simp [put, hh, hnew, containsSync, BloomFilter.contains_insert]

end LocalChunkStore

end Velcrux.Storage
