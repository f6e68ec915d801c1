import Velcrux.Foundations.ByteFile
import Velcrux.Foundations.Noninterference
import Velcrux.Storage.ChunkStore

/-!
# Deduplication namespaces

`NamespacedChunkStore` (`storage/dedup_defense`).
-/

namespace Velcrux.Storage

open Chunking Sync ByteFile Noninterference

inductive DedupNamespacePolicy where
  | isolated
  | proofOfOwnership
  | global
deriving DecidableEq

structure CharTables where
  isWhitespace : Char → Bool
  isAlphanumeric : Char → Bool
  disjoint : ∀ c : Char, isWhitespace c → isAlphanumeric c = false
  isWhitespace_ascii : ∀ c : Char, c.toNat < 128 →
    isWhitespace c = decide (c = ' ' ∨ 9 ≤ c.toNat ∧ c.toNat ≤ 13)
  isAlphanumeric_ascii : ∀ c : Char, c.toNat < 128 → isAlphanumeric c = c.isAlphanum

structure DedupEnv extends StoreEnv where
  tables : CharTables

variable (tables : CharTables)

def CharTables.isKept (c : Char) : Bool :=
  tables.isAlphanumeric c || c == '-' || c == '_' || c == '.'

def CharTables.trim (s : List Char) : List Char :=
  ((s.dropWhile tables.isWhitespace).reverse.dropWhile tables.isWhitespace).reverse

def sanitizeTenantId (tenantId : String) : String :=
  let trimmed := tables.trim tenantId.toList
  if trimmed = [] then "default"
  else
    let sanitized := String.ofList (trimmed.filter tables.isKept)
    if sanitized = "" ∨ sanitized = "." ∨ sanitized = ".." then "default" else sanitized

structure ChunkAclEntry where
  ownerTenant : String
  authorizedTenants : List String

namespace ChunkAclEntry

def new (tenantId : String) : ChunkAclEntry := ⟨tenantId, [tenantId]⟩

def isAuthorized (e : ChunkAclEntry) (tenantId : String) : Bool :=
  e.ownerTenant == tenantId || e.authorizedTenants.contains tenantId

def authorizeTenant (e : ChunkAclEntry) (tenantId : String) : ChunkAclEntry :=
  { e with authorizedTenants := tenantId :: e.authorizedTenants }

end ChunkAclEntry

inductive DiskAccess where
  | openStore
  | writeChunk (i : ℕ)
  | openFile
  | reopenFile
  | openChunk
  | quarantine

structure DiskFate where
  fails : DiskAccess → Bool
  endsAt : Option ℕ

def DiskFate.sound : DiskFate := ⟨fun _ => false, none⟩

/-- Under the isolated policy each tenant has a store in a directory named by the sanitized tenant
identity; opened stores are cached under that name. -/
structure NamespacedChunkStore where
  policy : DedupNamespacePolicy
  tenantDirs : String → ChunkDir
  tenantBlooms : String → Option BloomFilter
  /-- The names in `tenant_stores`, for the scan over all of them. -/
  cached : List String
  sharedStore : LocalChunkStore
  aclTable : AList fun _ : Hash => ChunkAclEntry
  poisonAttempts : ℕ
  oracleProbesBlocked : ℕ

inductive StoreRef where
  | shared
  | tenant (name : String)
deriving DecidableEq

namespace NamespacedChunkStore

variable (env : DedupEnv)

def new (policy : DedupNamespacePolicy) (tenantDirs : String → ChunkDir) (shared : ChunkDir) :
    NamespacedChunkStore where
  policy := policy
  tenantDirs := tenantDirs
  tenantBlooms := fun _ => none
  cached := []
  sharedStore := LocalChunkStore.new env.toStoreEnv shared
  aclTable := ∅
  poisonAttempts := 0
  oracleProbesBlocked := 0

variable (s : NamespacedChunkStore)

def setStore (store : LocalChunkStore) : StoreRef → NamespacedChunkStore
  | .shared => { s with sharedStore := store }
  | .tenant name =>
    { s with
      tenantDirs := Function.update s.tenantDirs name store.chunks
      tenantBlooms := Function.update s.tenantBlooms name (some store.bloom)
      cached := if name ∈ s.cached then s.cached else name :: s.cached }

def cachedStore (name : String) : Option LocalChunkStore :=
  (s.tenantBlooms name).map fun bloom => ⟨s.tenantDirs name, bloom⟩

variable (fate : DiskFate)

def getTenantStore (tenantId : String) : Except VelcruxError (StoreRef × LocalChunkStore) :=
  if s.policy ≠ .isolated then .ok (.shared, s.sharedStore)
  else
    let cleanTenant := sanitizeTenantId env.tables tenantId
    match s.cachedStore cleanTenant with
    | some store => .ok (.tenant cleanTenant, store)
    | none =>
      if fate.fails .openStore then .error .io
      else .ok (.tenant cleanTenant, LocalChunkStore.new env.toStoreEnv (s.tenantDirs cleanTenant))

def countProbe : NamespacedChunkStore :=
  { s with oracleProbesBlocked := s.oracleProbesBlocked + 1 }

def countPoison : NamespacedChunkStore :=
  { s with poisonAttempts := s.poisonAttempts + 1 }

def heldElsewhere (cleanTenant : String) (h : Hash) : Bool :=
  (s.cached.any fun t => t != cleanTenant &&
    ((s.cachedStore t).map (·.containsSync h)).getD false) || s.sharedStore.containsSync h

def authorized (tenantId : String) (h : Hash) : Bool :=
  ((s.aclTable.lookup h).map (·.isAuthorized tenantId)).getD false

def containsForTenant (tenantId : String) (h : Hash) : NamespacedChunkStore × Bool :=
  match s.policy with
  | .isolated =>
    let cleanTenant := sanitizeTenantId env.tables tenantId
    match s.cachedStore cleanTenant with
    | some store => (s, store.containsSync h)
    | none =>
      -- not in the cache: the directory may be there from an earlier run
      if ((s.tenantDirs cleanTenant).lookup h).isSome then (s, true)
      else if s.heldElsewhere cleanTenant h then (s.countProbe, false)
      else (s, false)
  | .proofOfOwnership =>
    if !s.sharedStore.containsSync h then (s, false)
    else if s.authorized tenantId h then (s, true)
    else (s.countProbe, false)
  | .global => (s, s.sharedStore.containsSync h)

def authorize (tenantId : String) (h : Hash) : NamespacedChunkStore :=
  let entry := (s.aclTable.lookup h).getD (.new tenantId)
  { s with aclTable := s.aclTable.insert h (entry.authorizeTenant tenantId) }

def putForTenant (tenantId : String) (h : Hash)
    (data : Bytes) : NamespacedChunkStore × Except VelcruxError Unit :=
  if env.H data ≠ h then
    (s.countPoison,
      .error (.protocol (.malformed "checksum mismatch: rejected corrupted chunk put")))
  else
    match s.policy with
    | .isolated =>
      match s.getTenantStore env fate tenantId with
      | .error e => (s, .error e)
      | .ok (ref, store) =>
        let (store, r) := store.put env.toStoreEnv (fate.fails (.writeChunk 0)) h data
        (s.setStore store ref, r)
    | .proofOfOwnership =>
      match s.sharedStore.put env.toStoreEnv (fate.fails (.writeChunk 0)) h data with
      | (store, .error e) => (s.setStore store .shared, .error e)
      | (store, .ok ()) => ((s.setStore store .shared).authorize tenantId h, .ok ())
    | .global =>
      let (store, r) := s.sharedStore.put env.toStoreEnv (fate.fails (.writeChunk 0)) h data
      (s.setStore store .shared, r)

def authorizeAll (s : NamespacedChunkStore) (tenantId : String) :
    List Bytes → NamespacedChunkStore
  | [] => s
  | chunk :: rest =>
    match (ChunkDesc.of env.H chunk).hash with
    | some hash => (s.authorize tenantId hash).authorizeAll tenantId rest
    | none => s.authorizeAll tenantId rest

def ingestInto (ref : StoreRef)
    (store : LocalChunkStore) (mode : ChunkMode) (params : ChunkParams) (reads : List Bytes) :
    NamespacedChunkStore × Except Failure ℕ :=
  if fate.fails .openFile then (s.setStore store ref, .error (.error .io))
  else
    let (store, r) :=
      store.ingestFileSync env.toStoreEnv (fun i => fate.fails (.writeChunk i)) mode params reads
    (s.setStore store ref, r)

def ingestFileForTenant (tenantId : String)
    (mode : ChunkMode) (params : ChunkParams) (reads : List Bytes) :
    NamespacedChunkStore × Except Failure ℕ :=
  match s.policy with
  | .isolated =>
    match s.getTenantStore env fate tenantId with
    | .error e => (s, .error (.error e))
    | .ok (ref, store) => s.ingestInto env fate ref store mode params reads
  | .proofOfOwnership =>
    match s.ingestInto env fate .shared s.sharedStore mode params reads with
    | (s, .error e) => (s, .error e)
    | (s, .ok count) =>
      if fate.fails .reopenFile then (s, .error (.error .io))
      else
        match chunkReader mode params params.max reads with
        | .error e => (s, .error e)
        | .ok chunks => (s.authorizeAll env tenantId (chunks.map Prod.snd), .ok count)
  | .global => s.ingestInto env fate .shared s.sharedStore mode params reads

def chunkSource (tenantId : String) (h : Hash) :
    NamespacedChunkStore × Except VelcruxError StoreRef :=
  match s.policy with
  | .isolated => (s, .ok (.tenant (sanitizeTenantId env.tables tenantId)))
  | .proofOfOwnership =>
    match s.aclTable.lookup h with
    | some entry =>
      if entry.isAuthorized tenantId then (s, .ok .shared)
      else
        (s.countProbe,
          .error (.protocol (.malformed "unauthorized access to chunk in shared store")))
    | none => (s, .error (.protocol (.malformed "chunk not authorized for tenant")))
  | .global => (s, .ok .shared)

def dir : StoreRef → ChunkDir
  | .shared => s.sharedStore.chunks
  | .tenant name => s.tenantDirs name

/-- A chunk file moved away by `quarantine`; a failure is ignored. The filters keep the digest. -/
def quarantine (ref : StoreRef) (h : Hash) : NamespacedChunkStore :=
  if fate.fails .quarantine then s
  else
    match ref with
    | .shared => { s with sharedStore := { s.sharedStore with chunks := s.sharedStore.chunks.erase h } }
    | .tenant name =>
      { s with tenantDirs := Function.update s.tenantDirs name ((s.tenantDirs name).erase h) }

def copyChunkForTenant (tenantId : String) (h : Hash)
    (dst : Bytes) (dstOffset : ℕ) : NamespacedChunkStore × Except VelcruxError ℕ × Bytes :=
  match s.chunkSource env tenantId h with
  | (s, .error e) => (s, .error e, dst)
  | (s, .ok ref) =>
    match (s.dir ref).lookup h with
    | none => (s, .error (.protocol (.malformed "chunk not found in store")), dst)
    | some data =>
      if fate.fails .openChunk then (s, .error .io, dst)
      else if (fate.endsAt.getD data.length) < data.length then
        ((s.quarantine fate ref h).countPoison,
          .error (.protocol (.malformed "checksum mismatch: truncated chunk quarantined")),
          writeAt dst dstOffset (data.take (fate.endsAt.getD data.length)))
      else if env.H data ≠ h then
        ((s.quarantine fate ref h).countPoison,
          .error (.protocol (.malformed "checksum mismatch: poisoned chunk quarantined")),
          writeAt dst dstOffset data)
      else (s, .ok data.length, writeAt dst dstOffset data)

def bloomFilterForTenant (tenantId : String) :
    NamespacedChunkStore × Except VelcruxError BloomFilter :=
  match s.policy with
  | .isolated =>
    match s.getTenantStore env fate tenantId with
    | .error e => (s, .error e)
    | .ok (ref, store) => (s.setStore store ref, .ok store.bloom)
  | .proofOfOwnership =>
    let usable := s.aclTable.entries.filter fun e => e.2.isAuthorized tenantId
    (s, .ok ((usable.map Sigma.fst).foldl BloomFilter.insert (BloomFilter.new env.sizing 50000)))
  | .global => (s, .ok s.sharedStore.bloom)

end NamespacedChunkStore

inductive DedupCall where
  | put (fate : DiskFate) (h : Hash) (data : Bytes)
  | ingest (fate : DiskFate) (mode : ChunkMode) (params : ChunkParams) (reads : List Bytes)
  | contains (h : Hash)
  | copy (fate : DiskFate) (h : Hash) (dst : Bytes) (dstOffset : ℕ)
  | bloomFilter (fate : DiskFate)

inductive DedupAnswer where
  | put (r : Except VelcruxError Unit)
  | ingest (r : Except Failure ℕ)
  | contains (r : Bool)
  | copy (r : Except VelcruxError ℕ) (dst : Bytes)
  | bloomFilter (r : Except VelcruxError BloomFilter)

def NamespacedChunkStore.step (env : DedupEnv) (s : NamespacedChunkStore) :
    String × DedupCall → NamespacedChunkStore × DedupAnswer
  | (tenantId, .put fate h data) => (s.putForTenant env fate tenantId h data).map id .put
  | (tenantId, .ingest fate mode params reads) =>
    (s.ingestFileForTenant env fate tenantId mode params reads).map id .ingest
  | (tenantId, .contains h) => (s.containsForTenant env tenantId h).map id .contains
  | (tenantId, .copy fate h dst dstOffset) =>
    (s.copyChunkForTenant env fate tenantId h dst dstOffset).map id fun r => .copy r.1 r.2
  | (tenantId, .bloomFilter fate) => (s.bloomFilterForTenant env fate tenantId).map id .bloomFilter

/-- What is returned to `t` does not depend on the calls of `u`: over any disk, two histories of the
isolated store that agree but for the calls of `u` give `t` the same answers. -/
def Isolates (env : DedupEnv) (t u : String) : Prop :=
  ∀ (tenantDirs : String → ChunkDir) (shared : ChunkDir) (calls calls' : List (String × DedupCall)),
    purge u calls = purge u calls' →
    view (NamespacedChunkStore.step env) t (.new env .isolated tenantDirs shared)
        calls =
      view (NamespacedChunkStore.step env) t (.new env .isolated tenantDirs shared)
        calls'

/-- What remains of an identity when all but letters, digits, `-`, `_` and `.` are dropped; nothing,
one dot and two dots count as `default`. -/
def keptName (tenantId : String) : String :=
  let kept := String.ofList (tenantId.toList.filter tables.isKept)
  if kept = "" ∨ kept = "." ∨ kept = ".." then "default" else kept

end Velcrux.Storage
