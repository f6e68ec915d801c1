import Velcrux.Foundations.Transition
import Velcrux.Storage.ChunkStore

/-!
# Generational garbage collection

`GenerationalCasManager::mark_and_sweep` over the directory of a `LocalChunkStore`.
-/

namespace Velcrux.Storage

inductive CasGeneration where
  | nursery
  | tenured
  | tombstoned
deriving DecidableEq

structure CasTombstone where
  hash : Hash
  tombstonedAtSecs : ℕ
  size : ℕ
deriving DecidableEq

def CasTombstone.isExpired (t : CasTombstone) (ttlSecs nowSecs : ℕ) : Bool :=
  decide (ttlSecs ≤ nowSecs - t.tombstonedAtSecs)

structure CasChunkEntry where
  hash : Hash
  size : ℕ
  generation : CasGeneration
  modifiedSecs : ℕ
  tombstone : Option CasTombstone

structure CasGcPolicy where
  nurseryGraceSecs : ℕ
  tombstoneTtlSecs : ℕ
  purgeExpired : Bool
  dryRun : Bool

structure CasGenerationalGcReport where
  totalChunksScanned : ℕ := 0
  nurseryChunks : ℕ := 0
  tenuredChunks : ℕ := 0
  existingTombstones : ℕ := 0
  newlyTombstoned : ℕ := 0
  resurrectedChunks : ℕ := 0
  purgedChunks : ℕ := 0
  bytesScanned : ℕ := 0
  bytesTombstoned : ℕ := 0
  bytesReclaimed : ℕ := 0
  bytesRetained : ℕ := 0
  dryRun : Bool := false

structure CasStore where
  store : LocalChunkStore
  modified : Hash → ℕ
  tombstones : Hash → Option CasTombstone

namespace CasStore

variable (s : CasStore)

def chunk (h : Hash) : Option Bytes := s.store.chunks.lookup h

def put (env : StoreEnv) (fails : Bool) (h : Hash) (data : Bytes) (now : ℕ) :
    CasStore × Except VelcruxError Unit :=
  let r := s.store.put env fails h data
  let modified := if (s.chunk h).isSome then s.modified else Function.update s.modified h now
  ({ s with store := r.1, modified := modified }, r.2)

def scanChunk (nowSecs nurseryGraceSecs : ℕ) (h : Hash) : Option CasChunkEntry :=
  (s.chunk h).map fun data =>
    { hash := h
      size := data.length
      generation :=
        if (s.tombstones h).isSome then .tombstoned
        else if nowSecs - s.modified h < nurseryGraceSecs then .nursery
        else .tenured
      modifiedSecs := s.modified h
      tombstone := s.tombstones h }

def resurrect (h : Hash) : CasStore :=
  if (s.tombstones h).isSome ∧ (s.chunk h).isSome then
    { s with tombstones := Function.update s.tombstones h none }
  else s

def purge (h : Hash) : CasStore :=
  { s with
    store := { s.store with chunks := s.store.chunks.erase h }
    tombstones := Function.update s.tombstones h none }

def bury (h : Hash) (t : CasTombstone) : CasStore :=
  { s with tombstones := Function.update s.tombstones h (some t) }

/-- A chunk that nothing refers to gets a tombstone once its file has reached the nursery age, and
is removed by a pass that finds the tombstone old enough. -/
def sweepEntry (refs : Finset Hash) (policy : CasGcPolicy) (nowSecs : ℕ) (delay : Hash → ℕ)
    (x : CasStore × CasGenerationalGcReport) (e : CasChunkEntry) : CasStore × CasGenerationalGcReport :=
  let (s, r) := x
  let r := { r with
    totalChunksScanned := r.totalChunksScanned + 1, bytesScanned := r.bytesScanned + e.size }
  if e.hash ∈ refs then
    let r := { r with tenuredChunks := r.tenuredChunks + 1, bytesRetained := r.bytesRetained + e.size }
    if e.tombstone.isSome then
      (if policy.dryRun then s else s.resurrect e.hash,
        { r with resurrectedChunks := r.resurrectedChunks + 1 })
    else (s, r)
  else if e.generation = .nursery ∧ e.tombstone.isNone then
    (s, { r with nurseryChunks := r.nurseryChunks + 1, bytesRetained := r.bytesRetained + e.size })
  else
    let r := { r with bytesTombstoned := r.bytesTombstoned + e.size }
    match e.tombstone with
    | some tomb =>
      let r := { r with existingTombstones := r.existingTombstones + 1 }
      if policy.purgeExpired ∧ tomb.isExpired policy.tombstoneTtlSecs nowSecs then
        (if policy.dryRun then s else s.purge e.hash,
          { r with purgedChunks := r.purgedChunks + 1, bytesReclaimed := r.bytesReclaimed + e.size })
      else (s, { r with bytesRetained := r.bytesRetained + e.size })
    | none =>
      (if policy.dryRun then s else s.bury e.hash ⟨e.hash, nowSecs + delay e.hash, e.size⟩,
        { r with newlyTombstoned := r.newlyTombstoned + 1, bytesRetained := r.bytesRetained + e.size })

def markAndSweep (refs : Finset Hash) (policy : CasGcPolicy) (nowSecs : ℕ) (delay : Hash → ℕ)
    (listing : List Hash) : CasStore × CasGenerationalGcReport :=
  (listing.filterMap (s.scanChunk nowSecs policy.nurseryGraceSecs)).foldl
    (sweepEntry refs policy nowSecs delay) (s, { dryRun := policy.dryRun })

end CasStore

inductive CasEvent where
  | put (fails : Bool) (h : Hash) (data : Bytes) (now : ℕ)
  | sweep (refs : Finset Hash) (policy : CasGcPolicy) (delay : Hash → ℕ) (listing : List Hash) (now : ℕ)

structure CasWorld where
  store : CasStore
  clock : ℕ

def CasWorld.step (env : StoreEnv) (w : CasWorld) : CasEvent → Option CasWorld
  | .put fails h data now =>
    if w.clock ≤ now then some ⟨(w.store.put env fails h data now).1, now⟩ else none
  | .sweep refs policy delay listing now =>
    if w.clock ≤ now ∧ listing.Perm w.store.store.chunks.keys then
      some ⟨(w.store.markAndSweep refs policy now delay listing).1, now⟩
    else none

def CasRun (env : StoreEnv) (ok : CasWorld → CasEvent → Prop) :
    List (CasWorld × CasEvent) → CasWorld → Prop :=
  Transition.Run (CasWorld.step env) ok (· = ⟨⟨.new env ∅, fun _ => 0, fun _ => none⟩, 0⟩)

def Unreferenced (x : Hash) (p : ℕ → Prop) (h : List (CasWorld × CasEvent)) : Prop :=
  ∃ later w refs policy delay listing now earlier,
    h = later ++ (w, .sweep refs policy delay listing now) :: earlier ∧ p now ∧ x ∉ refs ∧
      ∀ y ∈ later, ∀ refs policy delay listing now, y.2 = .sweep refs policy delay listing now → x ∉ refs

/-- A step removes a chunk only if it is a pass without a reference to it, at least the nursery grace after
every successful put of the chunk, and it has been unreferenced since a pass that is at least the time for
which tombstones are kept ago. -/
def CollectsSafely (env : StoreEnv) (h : List (CasWorld × CasEvent)) (w w' : CasWorld) : CasEvent → Prop
  | .put _ _ _ _ => ∀ x, (w.store.chunk x).isSome → (w'.store.chunk x).isSome
  | .sweep refs policy _ _ now => ∀ x, (w.store.chunk x).isSome → w'.store.chunk x = none →
      x ∉ refs ∧ Unreferenced x (fun v => v + policy.tombstoneTtlSecs ≤ now) h ∧
      ∀ w1 fails data t, (w1, .put fails x data t) ∈ h → (w1.store.put env fails x data t).2 = .ok () →
        t + policy.nurseryGraceSecs ≤ now

def PutOnce (grace : ℕ) (w : CasWorld) : CasEvent → Prop
  | .put _ h _ _ => w.store.chunk h = none
  | .sweep refs policy _ _ _ => policy.nurseryGraceSecs = grace ∧
      (policy.dryRun = true → ∀ x ∈ refs, w.store.tombstones x = none)

end Velcrux.Storage
