import Velcrux.Manifest.Proofs.EntryProofs
import Velcrux.Manifest.Scanner

/-!
# Proofs: what a scan writes

A scan that returns has added the entries of the tree one after another, in the order in which `/`
comes before every other character, however the directories were read.
-/

namespace Velcrux.Manifest

open Chunking (ChunkMode ChunkParams chunkReader)
open Protocol (Compressor)
open Storage (VPath sidecarXattrs)
open Wire List Forest ManifestWriter FileFlags

variable {Z : Compressor} {H : HashFn} {mode : ChunkMode} {params : ChunkParams}
variable {w w' : ManifestWriter} {entries : List FileEntry}

/-! ## The walk adds the entries of the tree -/

variable {e : FileEntry}

theorem addScanned_ok_iff : addScanned Z w e = .ok w' ↔ w.addEntry Z e = .ok w' := by
  unfold addScanned
  cases w.addEntry Z e <;> simp

theorem addEntries_cons {es : List FileEntry} : addEntries Z (e :: es) w = .ok w' ↔
      ∃ w1, w.addEntry Z e = .ok w1 ∧ addEntries Z es w1 = .ok w' := by
  rw [addEntries]
  cases w.addEntry Z e <;> simp [bind, Except.bind]

theorem addEntries_append {es es' : List FileEntry} :
    addEntries Z (es ++ es') w = .ok w' ↔
      ∃ w1, addEntries Z es w = .ok w1 ∧ addEntries Z es' w1 = .ok w' := by
  induction es generalizing w with
  | nil => simp [addEntries]
  | cons e es ih =>
    rw [cons_append]
    simp only [addEntries_cons, ih]
    constructor
    · rintro ⟨w1, he, w2, hes, hes'⟩
      exact ⟨w2, ⟨w1, he, hes⟩, hes'⟩
    · rintro ⟨w2, ⟨w1, he, hes⟩, hes'⟩
      exact ⟨w1, he, w2, hes, hes'⟩

theorem addEntries_singleton : addEntries Z [e] w = .ok w' ↔ w.addEntry Z e = .ok w' := by
  rw [addEntries_cons]
  simp [addEntries]

def Adds (Z : Compressor) (listed : Except Failure (List FileEntry)) (w w' : ManifestWriter) : Prop :=
  ∃ es, listed = .ok es ∧ addEntries Z es w = .ok w'

theorem bind_ok_iff {α β : Type} {x : Except Failure α} {k : α → Except Failure β} {b : β} :
    (x >>= k) = .ok b ↔ ∃ a, x = .ok a ∧ k a = .ok b := by
  cases x with
  | error e => simp [bind, Except.bind]
  | ok a => simp [bind, Except.bind]

theorem adds_leaf {listed : Except Failure FileEntry} :
    (listed >>= addScanned Z w) = .ok w' ↔ Adds Z (do return [← listed]) w w' := by
  rw [bind_ok_iff]
  constructor
  · rintro ⟨e, he, hadd⟩
    refine ⟨[e], ?_, addEntries_singleton.mpr (addScanned_ok_iff.mp hadd)⟩
    rw [he]
    rfl
  · rintro ⟨es, hes, hadd⟩
    obtain ⟨e, he, hsingle⟩ := bind_ok_iff.mp hes
    cases hsingle
    exact ⟨e, he, addScanned_ok_iff.mpr (addEntries_singleton.mp hadd)⟩

theorem adds_append {first second : Except Failure (List FileEntry)} :
    Adds Z (do let es ← first; let es' ← second; return es ++ es') w w' ↔
      ∃ w1, Adds Z first w w1 ∧ Adds Z second w1 w' := by
  constructor
  · rintro ⟨es, hes, hadd⟩
    obtain ⟨es1, hfirst, hlater⟩ := bind_ok_iff.mp hes
    obtain ⟨es2, hsecond, happend⟩ := bind_ok_iff.mp hlater
    cases happend
    obtain ⟨w1, hadd1, hadd2⟩ := addEntries_append.mp hadd
    exact ⟨w1, ⟨es1, hfirst, hadd1⟩, ⟨es2, hsecond, hadd2⟩⟩
  · rintro ⟨w1, ⟨es1, hfirst, hadd1⟩, ⟨es2, hsecond, hadd2⟩⟩
    refine ⟨es1 ++ es2, ?_, addEntries_append.mpr ⟨w1, hadd1, hadd2⟩⟩
    rw [hfirst, hsecond]
    rfl

mutual

theorem scanNode_ok_iff (node : Node) (path : String) (w w' : ManifestWriter) :
    scanNode Z H mode params path w node = .ok w' ↔
      Adds Z (node.listing H mode params path) w w' := by
  cases node with
  | file leaf fileMode reads =>
    rw [scanNode, Node.listing]
    exact adds_leaf
  | symlink leaf target =>
    rw [scanNode, Node.listing]
    exact adds_leaf
  | dir children =>
    rw [scanNode, Node.listing, bind_ok_iff]
    constructor
    · rintro ⟨e, he, hlater⟩
      obtain ⟨w1, hadd, hscan⟩ := bind_ok_iff.mp hlater
      obtain ⟨es, hes, hadds⟩ := (scanForest_ok_iff children path w1 w').mp hscan
      refine ⟨e :: es, ?_, ?_⟩
      · rw [he, hes]
        rfl
      · exact addEntries_cons.mpr ⟨w1, addScanned_ok_iff.mp hadd, hadds⟩
    · rintro ⟨es, hes, hadds⟩
      obtain ⟨e, he, hlater⟩ := bind_ok_iff.mp hes
      obtain ⟨es1, hes1, hcons⟩ := bind_ok_iff.mp hlater
      cases hcons
      obtain ⟨w1, hadd, hadds⟩ := addEntries_cons.mp hadds
      refine ⟨e, he, bind_ok_iff.mpr ⟨w1, ?_, ?_⟩⟩
      · exact addScanned_ok_iff.mpr hadd
      · exact (scanForest_ok_iff children path w1 w').mpr ⟨es1, hes1, hadds⟩

theorem scanForest_ok_iff (forest : Forest) (dir : String) (w w' : ManifestWriter) :
    scanForest Z H mode params dir w forest = .ok w' ↔
      Adds Z (forest.listing H mode params dir) w w' := by
  cases forest with
  | nil => simp [scanForest, listing, Adds, addEntries]
  | cons name node rest =>
    rw [scanForest, listing]
    split_ifs
    · exact scanForest_ok_iff rest dir w w'
    · rw [bind_ok_iff, adds_append]
      exact exists_congr fun w1 => and_congr (scanNode_ok_iff node _ w w1)
        (scanForest_ok_iff rest dir w1 w')

end

theorem manifestOfTree_ok {tree : DirectoryTree} {written : ManifestBegin × ManifestEnd × Bytes}
    (h : manifestOfTree Z H params tree = .ok written) :
    ∃ entries, tree.entries H = .ok entries ∧ writeManifest Z H params entries = .ok written := by
  obtain ⟨w, hscan, hfinish⟩ := bind_ok_iff.mp h
  obtain ⟨entries, hentries, hadds⟩ := (scanForest_ok_iff _ _ _ _).mp hscan
  refine ⟨entries, hentries, ?_⟩
  rw [writeManifest, hadds]
  cases hw : w.finish Z H with
  | error e =>
    rw [hw] at hfinish
    cases hfinish
  | ok out =>
    rw [hw] at hfinish
    cases hfinish
    exact hw

/-! ## The entries are in canonical form -/

variable {path : String}

theorem scanPath_ok {vpath : VPath} (h : scanPath path = .ok vpath) : vpath.str = path := by
  unfold scanPath at h
  split at h
  · rename_i p hp
    cases h
    exact Storage.validate_ok hp
  · cases h

theorem canonical_ofChunk (chunk : Bytes) :
    (ChunkDesc.ofChunk H chunk).hash.isSome ↔ ¬ (ChunkDesc.ofChunk H chunk).flags.isHole := by
  unfold ChunkDesc.ofChunk
  cases (Chunking.ChunkDesc.of H chunk).hash with
  | some hash => simp [ChunkFlags.isHole]
  | none => simp [ChunkFlags.isHole]

theorem fileType_withXattrs (f : FileFlags) (b : Bool) (h : f.bits ∈ [0, 1, 2, 4]) :
    (f.withXattrs b).fileType = f.fileType ∧ (f.withXattrs b).isHardlink = false ∧
      (f.withXattrs b).hasXattrs = b := by
  obtain ⟨bits⟩ := f
  have hbits : bits = 0 ∨ bits = 1 ∨ bits = 2 ∨ bits = 4 := by simpa using h
  rcases hbits with rfl | rfl | rfl | rfl <;> cases b <;> decide

theorem canonical_withXattrs {xattrs : List (String × Bytes)} (hflags : e.flags.bits ∈ [0, 1, 2, 4])
    (hchunks : ∀ c ∈ e.chunks, c.hash.isSome ↔ ¬ c.flags.isHole)
    (hsymlink : e.symlinkTarget.isSome ↔ e.flags.fileType = .symlink)
    (hhardlink : e.hardlinkTarget = none) : (e.withXattrs xattrs).Canonical := by
  obtain ⟨htype, hlink, hxattrs⟩ := fileType_withXattrs e.flags (xattrs ≠ []) hflags
  refine ⟨hchunks, ?_, ?_, ?_⟩
  · show e.symlinkTarget.isSome ↔ (e.flags.withXattrs _).fileType = .symlink
    rw [htype, hsymlink]
  · show e.hardlinkTarget.isSome ↔ (e.flags.withXattrs _).isHardlink
    rw [hlink, hhardlink]
    simp
  · intro hne
    show (e.flags.withXattrs _).hasXattrs
    rw [hxattrs]
    exact decide_eq_true hne

variable {node : Node}

theorem scanLeaf_ok
    (h : scanLeaf H mode params path node = .ok e) : e.path.str = path ∧ e.Canonical := by
  cases node with
  | file leaf fileMode reads =>
    obtain ⟨vpath, hpath, h⟩ := bind_ok_iff.mp h
    obtain ⟨xattrs, -, h⟩ := bind_ok_iff.mp h
    obtain ⟨chunks, -, h⟩ := bind_ok_iff.mp h
    cases h
    refine ⟨scanPath_ok hpath, canonical_withXattrs ?_ ?_ ?_ rfl⟩
    · unfold FileEntry.regular
      dsimp only
      split_ifs <;> decide
    · intro c hc
      obtain ⟨chunk, -, rfl⟩ := mem_map.mp hc
      exact canonical_ofChunk chunk.2
    · unfold FileEntry.regular
      dsimp only
      split_ifs <;> decide
  | symlink leaf target =>
    obtain ⟨vpath, hpath, h⟩ := bind_ok_iff.mp h
    obtain ⟨xattrs, -, h⟩ := bind_ok_iff.mp h
    cases h
    refine ⟨scanPath_ok hpath, canonical_withXattrs ?_ (fun c hc => by cases hc) ?_ rfl⟩
    · show symlink.bits ∈ _
      decide
    · exact iff_of_true rfl (show symlink.fileType = .symlink by decide)
  | dir children =>
    obtain ⟨vpath, hpath, h⟩ := bind_ok_iff.mp h
    cases h
    refine ⟨scanPath_ok hpath, ⟨fun c hc => (by cases hc), ?_, ?_, fun hne => absurd rfl hne⟩⟩
    · exact iff_of_false nofun (show directory.fileType ≠ .symlink by decide)
    · exact iff_of_false nofun (show ¬ directory.isHardlink by decide)

/-! ## The order of the walk -/

def rank (c : Char) : ℕ := if c = '/' then 0 else c.toNat + 1

def WalkBefore (p q : String) : Prop := p.toList.map rank < q.toList.map rank

theorem walkBefore_asymm (p q : String) (h : WalkBefore p q) : ¬ WalkBefore q p := lt_asymm h

def Below (t : List Char) : Prop := t = [] ∨ ∃ u, t = '/' :: u

theorem rank_lt {a b : Char} (hb : b ≠ '/') (h : a < b) : rank a < rank b := by
  have hlt : a.toNat < b.toNat := h
  unfold rank
  split_ifs <;> omega

theorem rank_lt_of_names {l l' t t' : List Char} (h : l < l') (hl' : '/' ∉ l') (ht : Below t) :
    (l ++ t).map rank < (l' ++ t').map rank := by
  induction l generalizing l' with
  | nil =>
    cases l' with
    | nil => exact absurd h (lt_irrefl _)
    | cons b l' =>
      have hb : b ≠ '/' := fun h => hl' (h ▸ mem_cons_self)
      rcases ht with rfl | ⟨u, rfl⟩
      · exact nil_lt_cons _ _
      · refine cons_lt_cons_iff.mpr (.inl ?_)
        simp [rank, hb]
  | cons a l ih =>
    cases l' with
    | nil => exact absurd h (not_lt_nil _)
    | cons b l' =>
      have hb : b ≠ '/' := fun h => hl' (h ▸ mem_cons_self)
      have hlater : '/' ∉ l' := fun h => hl' (mem_cons_of_mem b h)
      refine cons_lt_cons_iff.mpr ?_
      rcases cons_lt_cons_iff.mp h with hab | ⟨rfl, hll'⟩
      · exact .inl (rank_lt hb hab)
      · exact .inr ⟨rfl, ih hll' hlater⟩

mutual

def Node.Ordered : Node → Prop
  | .file .. => True
  | .symlink .. => True
  | .dir children => children.Ordered

def Forest.Ordered : Forest → Prop
  | .nil => True
  | .cons name node rest =>
    (name ≠ "" ∧ '/' ∉ name.toList) ∧ (∀ n ∈ rest.names, name < n) ∧ node.Ordered ∧ rest.Ordered

end

variable {f : Forest}

theorem Forest.mem_names_insert {name n : String} :
    n ∈ (f.insert name node).names ↔ n = name ∨ n ∈ f.names := by
  induction f using names.induct with
  | case1 => simp [insert, names]
  | case2 name' node' rest ih =>
    rw [insert]
    split_ifs
    · simp [names]
    · simp only [names, mem_cons, ih]
      exact or_left_comm

theorem Forest.mem_names_sorted {n : String} : n ∈ f.sorted.names ↔ n ∈ f.names := by
  induction f using names.induct with
  | case1 => rw [sorted]
  | case2 name node rest ih =>
    rw [sorted, mem_names_insert, ih, names, mem_cons]

theorem Forest.ordered_insert {name : String}
    (hname : name ≠ "" ∧ '/' ∉ name.toList) (hnew : name ∉ f.names) (hnode : node.Ordered)
    (hf : f.Ordered) : (f.insert name node).Ordered := by
  induction f using names.induct with
  | case1 => exact ⟨hname, fun n hn => (by cases hn), hnode, trivial⟩
  | case2 name' node' rest ih =>
    obtain ⟨hname', hfirst, hnode', hrest⟩ := hf
    rw [names, mem_cons, not_or] at hnew
    rw [insert]
    split_ifs with hle
    · have hlt : name < name' := lt_of_le_of_ne hle hnew.1
      refine ⟨hname, fun n hn => ?_, hnode, hname', hfirst, hnode', hrest⟩
      rcases mem_cons.mp hn with rfl | hn
      · exact hlt
      · exact hlt.trans (hfirst n hn)
    · refine ⟨hname', fun n hn => ?_, hnode', ih hnew.2 hrest⟩
      rcases mem_names_insert.mp hn with rfl | hn
      · exact not_le.mp hle
      · exact hfirst n hn

mutual

theorem Node.ordered_sorted (node : Node) (h : node.WellFormed) : node.sorted.Ordered := by
  cases node with
  | file leaf fileMode reads => trivial
  | symlink leaf target => trivial
  | dir children => exact Forest.ordered_sorted children h

theorem Forest.ordered_sorted (f : Forest) (h : f.WellFormed) : f.sorted.Ordered := by
  cases f with
  | nil => trivial
  | cons name node rest =>
    obtain ⟨hname, hnew, hnode, hrest⟩ := h
    rw [sorted]
    exact ordered_insert hname (fun hn => hnew (mem_names_sorted.mp hn))
      (Node.ordered_sorted node hnode) (Forest.ordered_sorted rest hrest)

end

/-! ## The entries of a tree in the order of the walk -/

def base (dir : String) : List Char := if dir = "" then [] else dir.toList ++ ['/']

theorem toList_joinPath (dir name : String) : (joinPath dir name).toList = base dir ++ name.toList := by
  unfold joinPath base
  split_ifs <;> simp

theorem base_joinPath {dir name : String} (hname : name ≠ "") :
    base (joinPath dir name) = (joinPath dir name).toList ++ ['/'] := by
  have hne : joinPath dir name ≠ "" := by
    intro h
    have hlist := toList_joinPath dir name
    rw [h] at hlist
    have hnil : name.toList = [] := (append_eq_nil_iff.mp hlist.symm).2
    exact hname (String.toList_eq_nil_iff.mp hnil)
  rw [base, if_neg hne]

structure Listed (start : List Char) (entries : List FileEntry) : Prop where
  canonical : ∀ e ∈ entries, e.Canonical
  below : ∀ e ∈ entries, ∃ t, Below t ∧ e.path.str.toList = start ++ t
  ordered : entries.Pairwise fun e e' => WalkBefore e.path.str e'.path.str

structure ListedIn (start : List Char) (names : List String) (entries : List FileEntry) : Prop where
  canonical : ∀ e ∈ entries, e.Canonical
  below : ∀ e ∈ entries, ∃ name ∈ names, ∃ t, Below t ∧ e.path.str.toList = start ++ name.toList ++ t
  ordered : entries.Pairwise fun e e' => WalkBefore e.path.str e'.path.str

theorem listed_leaf (h : scanLeaf H mode params path node = .ok e) : Listed path.toList [e] := by
  obtain ⟨hpath, hcanonical⟩ := scanLeaf_ok h
  refine ⟨forall_mem_singleton.mpr hcanonical, forall_mem_singleton.mpr ⟨[], .inl rfl, ?_⟩,
    pairwise_singleton _ _⟩
  rw [hpath, append_nil]

theorem Listed.dir {names : List String}
    (hhead : Listed path.toList [e]) (hpath : e.path.str = path)
    (hlater : ListedIn (path.toList ++ ['/']) names entries) :
    Listed path.toList (e :: entries) := by
  refine ⟨forall_mem_cons.mpr ⟨hhead.canonical e mem_cons_self, hlater.canonical⟩,
    forall_mem_cons.mpr ⟨hhead.below e mem_cons_self, fun e' he' => ?_⟩,
    pairwise_cons.mpr ⟨fun e' he' => ?_, hlater.ordered⟩⟩
  · obtain ⟨name, -, t, -, hstr⟩ := hlater.below e' he'
    refine ⟨'/' :: (name.toList ++ t), .inr ⟨_, rfl⟩, ?_⟩
    rw [hstr]
    simp
  · obtain ⟨name, -, t, -, hstr⟩ := hlater.below e' he'
    -- the path of the directory is a proper beginning of every path in it
    have hsplit : e'.path.str.toList = path.toList ++ '/' :: (name.toList ++ t) := by
      rw [hstr]
      simp
    rw [WalkBefore, hpath, hsplit, map_append]
    have hlt : path.toList.map rank ++ [] < path.toList.map rank ++ _ :=
      append_left_lt (nil_lt_cons (rank '/') ((name.toList ++ t).map rank))
    rwa [append_nil] at hlt

theorem Listed.cons {start : List Char} {name : String} {names : List String}
    {here later : List FileEntry} (hhere : Listed (start ++ name.toList) here)
    (hlater : ListedIn start names later) (hfirst : ∀ n ∈ names, name < n)
    (hslash : ∀ n ∈ names, '/' ∉ n.toList) : ListedIn start (name :: names) (here ++ later) := by
  refine ⟨fun e he => ?_, fun e he => ?_, pairwise_append.mpr ⟨hhere.ordered, hlater.ordered,
    fun e he e' he' => ?_⟩⟩
  · exact (mem_append.mp he).elim (hhere.canonical e) (hlater.canonical e)
  · rcases mem_append.mp he with he | he
    · exact ⟨name, mem_cons_self, hhere.below e he⟩
    · obtain ⟨n, hn, hbelow⟩ := hlater.below e he
      exact ⟨n, mem_cons_of_mem name hn, hbelow⟩
  · obtain ⟨t, ht, hstr⟩ := hhere.below e he
    obtain ⟨n, hn, t', -, hstr'⟩ := hlater.below e' he'
    have hlt : name.toList < n.toList := String.lt_iff_toList_lt.mp (hfirst n hn)
    have hranks : (name.toList ++ t).map rank < (n.toList ++ t').map rank :=
      rank_lt_of_names hlt (hslash n hn) ht
    have hstart : start.map rank ++ _ < start.map rank ++ _ := append_left_lt hranks
    rw [← map_append, ← map_append] at hstart
    rwa [WalkBefore, hstr, hstr', append_assoc, append_assoc]

theorem Forest.Ordered.slash (h : f.Ordered) : ∀ n ∈ f.names, '/' ∉ n.toList := by
  induction f using names.induct with
  | case1 =>
    intro n hn
    cases hn
  | case2 name node rest ih =>
    obtain ⟨hname, -, -, hrest⟩ := h
    exact forall_mem_cons.mpr ⟨hname.2, ih hrest⟩

mutual

theorem Node.listed (node : Node) {path : String} (hbase : base path = path.toList ++ ['/'])
    (hordered : node.Ordered) {entries : List FileEntry}
    (h : node.listing H mode params path = .ok entries) : Listed path.toList entries := by
  cases node with
  | file leaf fileMode reads =>
    rw [Node.listing] at h
    obtain ⟨e, he, h⟩ := bind_ok_iff.mp h
    cases h
    exact listed_leaf he
  | symlink leaf target =>
    rw [Node.listing] at h
    obtain ⟨e, he, h⟩ := bind_ok_iff.mp h
    cases h
    exact listed_leaf he
  | dir children =>
    rw [Node.listing] at h
    obtain ⟨e, he, h⟩ := bind_ok_iff.mp h
    obtain ⟨later, hlater, h⟩ := bind_ok_iff.mp h
    cases h
    have hchildren := Forest.listed children hordered hlater
    rw [hbase] at hchildren
    exact (listed_leaf he).dir (scanLeaf_ok he).1 hchildren

theorem Forest.listed (f : Forest) {dir : String} (hordered : f.Ordered) {entries : List FileEntry}
    (h : f.listing H mode params dir = .ok entries) : ListedIn (base dir) f.names entries := by
  cases f with
  | nil =>
    rw [listing] at h
    cases h
    exact ⟨nofun, nofun, .nil⟩
  | cons name node rest =>
    obtain ⟨hname, hfirst, hnode, hrest⟩ := hordered
    rw [listing] at h
    split_ifs at h
    · have hlater := Forest.listed rest hrest h
      refine ⟨hlater.canonical, fun e he => ?_, hlater.ordered⟩
      obtain ⟨n, hn, hbelow⟩ := hlater.below e he
      exact ⟨n, mem_cons_of_mem name hn, hbelow⟩
    · obtain ⟨here, hhere, h⟩ := bind_ok_iff.mp h
      obtain ⟨later, hlater, h⟩ := bind_ok_iff.mp h
      cases h
      have hnodeListed := Node.listed node (base_joinPath hname.1) hnode hhere
      rw [toList_joinPath] at hnodeListed
      exact hnodeListed.cons (Forest.listed rest hrest hlater) hfirst hrest.slash

end

/-- **The entries of a tree** are in canonical form and in the order of the walk. -/
theorem DirectoryTree.listed {tree : DirectoryTree} (h : tree.entries H = .ok entries) :
    (∀ e ∈ entries, e.Canonical) ∧
      (entries.map fun e => e.path.str).Pairwise WalkBefore := by
  have hlisted := Forest.listed _ (Forest.ordered_sorted tree.root tree.wellFormed) h
  exact ⟨hlisted.canonical, pairwise_map.mpr hlisted.ordered⟩

end Velcrux.Manifest
