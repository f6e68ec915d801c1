import Velcrux.Foundations.Transition
import Velcrux.Storage.Dedup

/-!
# Proof of ownership

The calls by which a tenant is authorized for a chunk in the shared store without sending it.
`verify_and_authorize_pow` takes the data from the caller and never compares it with the digest.
-/

namespace Velcrux.Storage

open Chunking

structure OwnershipEnv extends DedupEnv where
  computeToken : Hash → Bytes → Bytes

def LocalChunkStore.getSync (env : StoreEnv) (store : LocalChunkStore) (fate : DiskFate) (h : Hash) :
    LocalChunkStore × Except VelcruxError Bytes :=
  match fate.fails .openChunk, store.chunks.lookup h with
  | false, some data =>
    if env.H data ≠ h then
      (if fate.fails .quarantine then store else { store with chunks := store.chunks.erase h },
        .error (.protocol (.malformed "checksum mismatch")))
    else (store, .ok data)
  | _, _ => (store, .error .io)

namespace NamespacedChunkStore

variable (env : OwnershipEnv) (s : NamespacedChunkStore)

def verifyAndAuthorizePow (tenantId : String) (h : Hash) (data token : Bytes) : NamespacedChunkStore × Bool :=
  if env.computeToken h data ≠ token then (s.countPoison, false) else (s.authorize tenantId h, true)

def authorizeTenantWithPow (fate : DiskFate) (tenantId : String) (h : Hash) (token : Bytes) :
    NamespacedChunkStore × Bool :=
  if s.policy ≠ .proofOfOwnership then (s, false)
  else
    match s.sharedStore.getSync env.toStoreEnv fate h with
    | (store, .error _) => (s.setStore store .shared, false)
    | (store, .ok data) =>
      if env.computeToken h data = token then ((s.setStore store .shared).authorize tenantId h, true)
      else (s.setStore store .shared, false)

end NamespacedChunkStore

inductive OwnerCall where
  | store (call : DedupCall)
  | verify (h : Hash) (data token : Bytes)
  | authorize (fate : DiskFate) (h : Hash) (token : Bytes)

variable (env : OwnershipEnv)

def NamespacedChunkStore.after (s : NamespacedChunkStore) :
    String × OwnerCall → NamespacedChunkStore
  | (tenantId, .store call) => (s.step env.toDedupEnv (tenantId, call)).1
  | (tenantId, .verify h data token) => (s.verifyAndAuthorizePow env tenantId h data token).1
  | (tenantId, .authorize fate h token) => (s.authorizeTenantWithPow env fate tenantId h token).1

def IsToken (h : Hash) (token : Bytes) : Prop :=
  ∃ d, env.H d = h ∧ token = env.computeToken h d

def OwnerCall.Supplies (h : Hash) : OwnerCall → Prop
  | .store (.put _ _ data) => env.H data = h
  | .store (.ingest _ mode params reads) =>
    ∃ chunks, chunkReader mode params params.max reads = .ok chunks ∧ ∃ c ∈ chunks, env.H c.2 = h
  | .store _ => False
  | .verify _ data token => env.H data = h ∨ IsToken env h token
  | .authorize _ _ token => IsToken env h token

def NamespacedChunkStore.Serves (s : NamespacedChunkStore) (tenantId : String) (h : Hash) : Prop :=
  (s.containsForTenant env.toDedupEnv tenantId h).2 = true ∨ ∃ fate dst dstOffset,
    (s.copyChunkForTenant env.toDedupEnv fate tenantId h dst dstOffset).2.1.isOk = true ∨
      (s.copyChunkForTenant env.toDedupEnv fate tenantId h dst dstOffset).2.2 ≠ dst

/-- Who may use a chunk has once supplied it, or its token. -/
def OnlyOwners (calls : List (NamespacedChunkStore × String × OwnerCall))
    (s : NamespacedChunkStore) : Prop :=
  ∀ tenantId h, s.Serves env tenantId h →
    ∃ x ∈ calls, x.2.1 = tenantId ∧ x.2.2.Supplies env h

def Honest (_ : NamespacedChunkStore) : String × OwnerCall → Prop
  | (_, .verify h data token) => env.computeToken h data = token → env.H data = h
  | _ => True

def Histories (ok : NamespacedChunkStore → String × OwnerCall → Prop) :
    List (NamespacedChunkStore × String × OwnerCall) → NamespacedChunkStore → Prop :=
  Transition.Run (fun s x => some (s.after env x)) ok
    fun s => ∃ dirs shared, s = .new env.toDedupEnv .proofOfOwnership dirs shared

end Velcrux.Storage
