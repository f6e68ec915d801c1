import Velcrux.Storage.Cluster

/-!
# Read quorums

A write quorum and a read quorum have a node in common, so that `get` finds every chunk that was
acknowledged. `has` asks for more: a whole read quorum has to hold the chunk.
-/

namespace Velcrux.Storage

open List Option

variable {H : HashFn} {h : Hash} {data : Bytes} {target : ℕ}

theorem selectNodes_spec {selected : List String} (ids : List String) (hnodup : selected.Nodup)
    (hlt : selected.length < target) :
    (selectNodes target selected ids).Nodup ∧ (selectNodes target selected ids).length ≤ target := by
  induction ids generalizing selected with
  | nil => exact ⟨hnodup, hlt.le⟩
  | cons id ids ih =>
    rw [selectNodes]
    split_ifs with hmem hfull
    · exact ih hnodup hlt
    · refine ⟨hnodup.append (nodup_singleton id) (by simpa using hmem), ?_⟩
      rw [length_append, length_singleton]
      omega
    · refine ih (hnodup.append (nodup_singleton id) (by simpa using hmem)) ?_
      rw [length_append, length_singleton]
      omega

namespace ClusteredChunkStore

variable {c c' : ClusteredChunkStore}

theorem validate_ok (h : c.quorum.validate = .ok ()) : 0 < c.quorum.replicas ∧ 0 < c.quorum.readQuorum := by
  unfold QuorumPolicy.validate at h
  split_ifs at h with hzero
  omega

theorem preference_spec (hpos : 0 < c.quorum.replicas) (hring : c.quorum.replicas ≤ c.ring.nodes.card) :
    (c.preference H h).Nodup ∧ (c.preference H h).length ≤ c.quorum.replicas := by
  unfold preference ConsistentHashRing.getPreferenceList
  split_ifs with hempty
  · exact ⟨nodup_nil, Nat.zero_le _⟩
  · rw [Nat.min_eq_left hring]
    exact selectNodes_spec _ nodup_nil hpos

theorem mem_targets {fit : ClusterNodeState → Bool} {x : String × NodeStore} :
    x ∈ c.targets H h fit ↔
      x.1 ∈ c.preference H h ∧ ∃ state, c.nodes x.1 = some (state, x.2) ∧ fit state = true := by
  unfold targets
  rw [mem_filterMap]
  constructor
  · rintro ⟨id, hid, hx⟩
    split at hx
    · rename_i state store hnode
      split_ifs at hx with hfit
      obtain rfl := some.inj hx
      exact ⟨hid, state, hnode, hfit⟩
    · cases hx
  · rintro ⟨hid, state, hnode, hfit⟩
    exact ⟨x.1, hid, by rw [hnode]; exact if_pos hfit⟩

theorem map_fst_targets (fit : ClusterNodeState → Bool) :
    ((c.targets H h fit).map Prod.fst).Sublist (c.preference H h) := by
  unfold targets
  induction c.preference H h with
  | nil => exact .slnil
  | cons id ids ih =>
    rw [filterMap_cons]
    split
    · exact ih.cons id
    · rename_i x hx
      split at hx
      · split_ifs at hx
        obtain rfl := some.inj hx
        exact ih.cons_cons id
      · cases hx

theorem sublist_filter_targets (fit : ClusterNodeState → Bool) (p : String × NodeStore → Bool) :
    (((c.targets H h fit).filter p).map Prod.fst).Sublist (c.preference H h) :=
  (filter_sublist.map _).trans (map_fst_targets fit)

theorem map_fst_found : ((c.targets H h ClusterNodeState.canRead).filter fun x =>
      x.2.hasError.isNone && (x.2.chunks h).isSome).map Prod.fst =
    (c.preference H h).filter (c.holds h) := by
  unfold targets
  induction c.preference H h with
  | nil => rfl
  | cons id ids ih =>
    cases hnode : c.nodes id with
    | none => simpa [holds, hnode] using ih
    | some x =>
      by_cases hfit : x.1.canRead = true
      · by_cases hhas : (x.2.hasError.isNone && (x.2.chunks h).isSome) = true <;>
          simp [holds, hnode, hfit, hhas, ih]
      · simpa [holds, hnode, hfit] using ih

theorem has_eq_true_iff (hpos : 0 < c.quorum.readQuorum) : c.has H h = .ok true ↔
    c.quorum.readQuorum ≤ ((c.preference H h).filter (c.holds h)).length := by
  rw [has, ← map_fst_found, length_map]
  simp only [Except.ok.injEq, decide_eq_true_eq, and_iff_right_iff_imp]
  rintro hle hnil
  rw [hnil] at hle
  exact absurd hle (by simpa using hpos.ne')

theorem firstData_eq {stores : List (String × NodeStore)}
    (hall : ∀ x ∈ stores, ∀ bytes, x.2.chunks h = some bytes → bytes = data)
    (hsome : ∃ x ∈ stores, x.2.getError.isNone = true ∧ x.2.chunks h = some data) :
    firstData h stores = some data := by
  obtain ⟨x, hx, hget, hchunk⟩ := hsome
  have hfound : (firstData h stores).isSome := by
    rw [firstData, List.isSome_findSome?]
    exact any_eq_true.mpr ⟨x, hx, by rw [if_pos hget, hchunk]; rfl⟩
  obtain ⟨bytes, hbytes⟩ := isSome_iff_exists.mp hfound
  obtain ⟨y, hy, hgives⟩ := List.exists_of_findSome?_eq_some hbytes
  split_ifs at hgives
  rw [hbytes, hall y hy bytes hgives]

theorem exists_answering (hstrict : c.quorum.isStrictlyConsistent = true)
    (hpos : 0 < c.quorum.replicas) (hring : c.quorum.replicas ≤ c.ring.nodes.card)
    (hput : (c.put H h data).2 = .ok ()) (hlater : c.Later H h c' data)
    (hread : c.quorum.readQuorum ≤ (c'.answering H h).length) :
    ∃ id ∈ c.acknowledges H h, id ∈ (c'.answering H h).map Prod.fst := by
  have hpref : c'.preference H h = c.preference H h := by
    rw [preference, preference, hlater.ring, hlater.quorum]
  obtain ⟨hnodup, hle⟩ := preference_spec hpos hring
  have hacks : c.quorum.writeQuorum ≤ (c.acknowledges H h).length := by
    unfold put at hput
    dsimp only at hput
    split_ifs at hput with hempty henough
    exact henough
  have hsub : (c.acknowledges H h).Sublist (c.preference H h) := sublist_filter_targets _ _
  have hsub' : ((c'.answering H h).map Prod.fst).Sublist (c.preference H h) :=
    hpref ▸ sublist_filter_targets _ _
  -- the two quorums are subsets of the preference list, which is too short for both
  have hcard : (c.preference H h).toFinset.card <
      (c.acknowledges H h).toFinset.card + ((c'.answering H h).map Prod.fst).toFinset.card := by
    rw [toFinset_card_of_nodup hnodup, toFinset_card_of_nodup (hsub.nodup hnodup),
      toFinset_card_of_nodup (hsub'.nodup hnodup), length_map]
    have := of_decide_eq_true hstrict
    omega
  obtain ⟨id, hid⟩ := Finset.inter_nonempty_of_card_lt_card_add_card
    (fun x hx => mem_toFinset.mpr (hsub.subset (mem_toFinset.mp hx)))
    (fun x hx => mem_toFinset.mpr (hsub'.subset (mem_toFinset.mp hx))) hcard
  rw [Finset.mem_inter, List.mem_toFinset, List.mem_toFinset] at hid
  exact ⟨id, hid.1, hid.2⟩

theorem found_iff_holds (hvalid : c.quorum.validate = .ok ())
    (hstrict : c.quorum.isStrictlyConsistent = true)
    (hring : c.quorum.replicas ≤ c.ring.nodes.card) (hput : (c.put H h data).2 = .ok ())
    (hlater : c.Later H h c' data) (hread : c.quorum.readQuorum ≤ (c'.answering H h).length) :
    c'.Found H h data ↔ c.quorum.readQuorum ≤ ((c'.preference H h).filter (c'.holds h)).length := by
  obtain ⟨hpos, hposR⟩ := validate_ok hvalid
  rw [Found, has_eq_true_iff (hlater.quorum ▸ hposR), hlater.quorum, and_iff_left_iff_imp]
  intro _
  obtain ⟨id, hack, hans⟩ := exists_answering hstrict hpos hring hput hlater hread
  obtain ⟨x, hx, rfl⟩ := mem_map.mp hans
  obtain ⟨hx, hanswers⟩ := mem_filter.mp hx
  obtain ⟨hmem, state, hnode, -⟩ := mem_targets.mp hx
  obtain ⟨y, hy, hchunk⟩ := hlater.kept x.1 hack
  obtain rfl : (state, x.2) = y := some.inj (hnode.symm.trans hy)
  have hfirst : firstData h (c'.targets H h ClusterNodeState.canRead) = some data := by
    refine firstData_eq (fun z hz bytes hbytes => ?_) ⟨x, hx, (Bool.and_eq_true_iff.mp hanswers).2, hchunk⟩
    obtain ⟨-, state', hnode', -⟩ := mem_targets.mp hz
    exact hlater.genuine z.1 _ bytes hnode' hbytes
  rw [get, if_neg (ne_nil_of_mem hmem), hfirst]
  rfl

def threeNodes (stores : String → Option (ClusterNodeState × NodeStore)) : ClusteredChunkStore :=
  ⟨⟨((SortedMap.empty.insert 1 "a").insert 2 "b").insert 3 "c", {"a", "b", "c"}⟩, stores, ⟨3, 2, 2, true⟩⟩

def sound (chunks : Hash → Option Bytes) : NodeStore := ⟨chunks, none, none, none⟩

def atWrite : ClusteredChunkStore :=
  threeNodes fun id => some (if id = "c" then .dead else .healthy, sound fun _ => none)

def atRead : ClusteredChunkStore :=
  threeNodes fun id => some (if id = "a" then .dead else .healthy,
    sound fun _ => if id = "c" then none else some [7])

theorem later_atRead : atWrite.Later (fun _ => .zero) .zero atRead [7] where
  ring := rfl
  quorum := rfl
  kept id hid := by
    have hmem : id ∈ ["a", "b"] := hid
    rcases mem_pair.mp hmem with rfl | rfl
    · exact ⟨_, rfl, rfl⟩
    · exact ⟨_, rfl, rfl⟩
  genuine id x bytes hx hbytes := by
    obtain rfl := some.inj hx
    by_cases hid : id = "c"
    · simp [sound, hid] at hbytes
    · simpa [sound, hid, eq_comm] using hbytes

theorem found_iff_holds_atRead : atRead.Found (fun _ => .zero) .zero [7] ↔
    2 ≤ ((atRead.preference (fun _ => .zero) .zero).filter (atRead.holds .zero)).length :=
  found_iff_holds (by decide) (by decide) (by decide) (by rfl) later_atRead (by decide)

/-- The write was acknowledged by two nodes and two nodes answer, but only one of these has the chunk. -/
theorem not_found_atRead : (atWrite.put (fun _ => .zero) .zero [7]).2 = .ok () ∧
    atWrite.Later (fun _ => .zero) .zero atRead [7] ∧
    2 ≤ (atRead.answering (fun _ => .zero) .zero).length ∧
    ¬ atRead.Found (fun _ => .zero) .zero [7] := by
  refine ⟨rfl, later_atRead, by decide, fun hfound => ?_⟩
  have hhas : atRead.has (fun _ => .zero) .zero = .ok false := by rfl
  exact absurd (hhas.symm.trans hfound.1) (by simp)

end ClusteredChunkStore

end Velcrux.Storage
