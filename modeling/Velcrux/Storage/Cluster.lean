import Velcrux.Foundations.SortedMap
import Velcrux.Wire.Basic

/-!
# Clustered chunk store

`ClusteredChunkStore`: a chunk is written to the nodes of its preference list on a hash ring and
read from them, with a quorum for either. Each call of a store behind a node may fail.
-/

namespace Velcrux.Storage

inductive ClusterNodeState where
  | healthy
  | suspect
  | draining
  | dead
deriving DecidableEq

def ClusterNodeState.canRead (s : ClusterNodeState) : Bool := s ≠ .dead

def ClusterNodeState.canWrite (s : ClusterNodeState) : Bool := s = .healthy ∨ s = .suspect

structure QuorumPolicy where
  replicas : ℕ
  writeQuorum : ℕ
  readQuorum : ℕ
  readRepair : Bool

def QuorumPolicy.isStrictlyConsistent (q : QuorumPolicy) : Bool := q.replicas < q.writeQuorum + q.readQuorum

def QuorumPolicy.validate (q : QuorumPolicy) : Except VelcruxError Unit :=
  if q.replicas = 0 ∨ q.writeQuorum = 0 ∨ q.readQuorum = 0 then
    .error (.internal "quorum parameters must be greater than zero")
  else if q.writeQuorum > q.replicas then
    .error (.internal "write quorum cannot exceed total replica count")
  else if q.readQuorum > q.replicas then
    .error (.internal "read quorum cannot exceed total replica count")
  else .ok ()

structure ConsistentHashRing where
  tokens : SortedMap ℕ String
  nodes : Finset String

def hashKey (H : HashFn) (bytes : Bytes) : ℕ := LittleEndian.decodeLE ((H bytes).bytes.take 8)

def selectNodes (target : ℕ) : List String → List String → List String
  | selected, [] => selected
  | selected, id :: ids =>
    if id ∈ selected then selectNodes target selected ids
    else if selected.length + 1 ≥ target then selected ++ [id]
    else selectNodes target (selected ++ [id]) ids

def ConsistentHashRing.getPreferenceList (ring : ConsistentHashRing) (H : HashFn) (h : Hash) (count : ℕ) :
    List String :=
  if ring.tokens.entries = [] ∨ count = 0 then []
  else
    let token := hashKey H h.bytes
    let entries := ring.tokens.entries
    selectNodes (min count ring.nodes.card) []
      ((entries.filter (token ≤ ·.1) ++ entries.filter (·.1 < token)).map Prod.snd)

structure NodeStore where
  chunks : Hash → Option Bytes
  hasError : Option String
  getError : Option String
  putError : Option String

structure ClusteredChunkStore where
  ring : ConsistentHashRing
  nodes : String → Option (ClusterNodeState × NodeStore)
  quorum : QuorumPolicy

namespace ClusteredChunkStore

variable (H : HashFn) (c : ClusteredChunkStore) (h : Hash)

def preference : List String := c.ring.getPreferenceList H h c.quorum.replicas

def targets (fit : ClusterNodeState → Bool) : List (String × NodeStore) :=
  (c.preference H h).filterMap fun id =>
    match c.nodes id with
    | some (state, store) => if fit state then some (id, store) else none
    | none => none

def has : Except VelcruxError Bool :=
  let found := (c.targets H h ClusterNodeState.canRead).filter fun x =>
    x.2.hasError.isNone && (x.2.chunks h).isSome
  .ok (found ≠ [] ∧ c.quorum.readQuorum ≤ found.length)

def acknowledges : List String :=
  ((c.targets H h ClusterNodeState.canWrite).filter fun x => x.2.putError.isNone).map Prod.fst

def lastError : Option String :=
  ((c.targets H h ClusterNodeState.canWrite).filterMap fun x =>
    x.2.putError.map fun e => s!"node {x.1} write failed: {e}").getLast?

def put (data : Bytes) : ClusteredChunkStore × Except VelcruxError Unit :=
  if c.preference H h = [] then (c, .error (.internal "no cluster nodes available for write"))
  else
    let acks := c.acknowledges H h
    let nodes := fun id => (c.nodes id).map fun x =>
      if id ∈ acks then (x.1, { x.2 with chunks := Function.update x.2.chunks h (some data) }) else x
    if c.quorum.writeQuorum ≤ acks.length then ({ c with nodes := nodes }, .ok ())
    else ({ c with nodes := nodes }, .error (.internal (s!"write quorum not satisfied: received " ++
      s!"{acks.length} acks, required {c.quorum.writeQuorum} (last error: {repr (c.lastError H h)})")))

def firstData (stores : List (String × NodeStore)) : Option Bytes :=
  stores.findSome? fun x => if x.2.getError.isNone then x.2.chunks h else none

def missing : List (String × NodeStore) → Bool → List String
  | [], _ => []
  | x :: xs, false =>
    if x.2.getError.isNone ∧ (x.2.chunks h).isSome then missing xs true else x.1 :: missing xs false
  | x :: xs, true =>
    if c.quorum.readRepair ∧ x.2.hasError.isNone ∧ (x.2.chunks h).isNone then x.1 :: missing xs true
    else missing xs true

def get : Except VelcruxError (Bytes × List String) :=
  let stores := c.targets H h ClusterNodeState.canRead
  if c.preference H h = [] then .error (.internal "no cluster nodes available for read")
  else
    match firstData h stores with
    | some data => .ok (data, if c.quorum.readRepair then c.missing h stores false else [])
    | none => .error (.internal s!"chunk not found in cluster: {h.toHex}")

/-! ## The contract -/

def answering : List (String × NodeStore) :=
  (c.targets H h ClusterNodeState.canRead).filter fun x => x.2.hasError.isNone && x.2.getError.isNone

def holds (id : String) : Bool :=
  match c.nodes id with
  | some (state, store) => state.canRead && store.hasError.isNone && (store.chunks h).isSome
  | none => false

structure Later (c' : ClusteredChunkStore) (data : Bytes) : Prop where
  ring : c'.ring = c.ring
  quorum : c'.quorum = c.quorum
  kept : ∀ id ∈ c.acknowledges H h, ∃ x, c'.nodes id = some x ∧ x.2.chunks h = some data
  genuine : ∀ id x bytes, c'.nodes id = some x → x.2.chunks h = some bytes → bytes = data

def Found (data : Bytes) : Prop := c.has H h = .ok true ∧ (c.get H h).map Prod.fst = .ok data

end ClusteredChunkStore

end Velcrux.Storage
