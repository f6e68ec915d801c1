import Mathlib

/-!
# A file system with symbolic links

Nodes at the real paths of a tree, the resolution of a path through symbolic links, and the calls of
a POSIX file system. A file with several names is not modelled.
-/

namespace Posix

open List Option

inductive Errno where
  | noent
  | notdir
  | isdir
  | exist
  | eloop
  | notempty
  | io
deriving DecidableEq

abbrev Path := List String

inductive Node (γ : Type) where
  | dir
  | file (data : γ)
  | link (target : String)
deriving DecidableEq

structure FileSystem (γ : Type) where
  node : Path → Option (Node γ)
  domain : List Path
  complete : ∀ p, (node p).isSome → p ∈ domain
  root : node [] = some .dir
  parent : ∀ p n, (node (p ++ [n])).isSome → node p = some .dir

inductive Step where
  | here
  | up
  | name (n : String)
deriving DecidableEq

def stepOf (component : String) : Step :=
  if component = "" ∨ component = "." then .here
  else if component = ".." then .up
  else .name component

def targetSteps (target : String) : List Step :=
  (target.toList.splitOn '/').map fun c => stepOf (String.ofList c)

def targetStart (cur : Path) (target : String) : Path :=
  if target.toList.head? = some '/' then [] else cur

inductive Place where
  | found (path : Path)
  | free (dir : Path) (name : String)
deriving DecidableEq

def Place.path : Place → Path
  | .found p => p
  | .free dir name => dir ++ [name]

namespace FileSystem

variable {γ : Type} (fs : FileSystem γ)

/-- The way through directories; `jump` goes on at a link. The last component is a link that is not
followed unless `follow` says so. -/
def walk (follow : Bool) (jump : Path → List Step → Except Errno Place) :
    Path → List Step → Except Errno Place
  | cur, [] => .ok (.found cur)
  | cur, .here :: rest => walk follow jump cur rest
  | cur, .up :: rest => walk follow jump cur.dropLast rest
  | cur, .name n :: rest =>
    match fs.node (cur ++ [n]) with
    | none => if rest = [] then .ok (.free cur n) else .error .noent
    | some .dir => walk follow jump (cur ++ [n]) rest
    | some (.file _) => if rest = [] then .ok (.found (cur ++ [n])) else .error .notdir
    | some (.link target) =>
      if rest = [] ∧ follow = false then .ok (.found (cur ++ [n]))
      else jump (targetStart cur target) (targetSteps target ++ rest)

def resolveFrom (follow : Bool) : ℕ → Path → List Step → Except Errno Place
  | 0 => fs.walk follow fun _ _ => .error .eloop
  | links + 1 => fs.walk follow (resolveFrom follow links)

def maxLinks : ℕ := 40

def resolve (follow : Bool) (path : Path) : Except Errno Place :=
  fs.resolveFrom follow maxLinks [] (path.map .name)

/-! ## Changing a node -/

variable (p : Path)

def dirAt : Bool :=
  match fs.node p with
  | some .dir => true
  | _ => false

theorem dirAt_iff {fs : FileSystem γ} {p : Path} : fs.dirAt p = true ↔ fs.node p = some .dir := by
  unfold dirAt
  split <;> simp_all

theorem ne_of_dir {fs : FileSystem γ} {p q : Path} (hp : fs.dirAt p = false)
    (hq : fs.node q = some .dir) : q ≠ p := by
  rintro rfl
  exact absurd (dirAt_iff.mpr hq) (by simp [hp])

def Bindable : Prop := p ≠ [] ∧ fs.dirAt p.dropLast = true ∧ fs.dirAt p = false

instance (p : Path) : Decidable (fs.Bindable p) := by
  unfold Bindable
  infer_instance

def bind (x : Node γ) (hp : fs.Bindable p) : FileSystem γ where
  node q := if q = p then some x else fs.node q
  domain := p :: fs.domain
  complete := by
    intro q hq
    split_ifs at hq with h
    · exact h ▸ mem_cons_self
    · exact mem_cons_of_mem _ (fs.complete q hq)
  root := by
    rw [if_neg hp.1.symm]
    exact fs.root
  parent := by
    intro q n hq
    have hold : fs.node q = some .dir := by
      split_ifs at hq with h
      · have hdir := dirAt_iff.mp hp.2.1
        rwa [← h, dropLast_concat] at hdir
      · exact fs.parent q n hq
    rw [if_neg (ne_of_dir hp.2.2 hold)]
    exact hold

def unbind (hp : fs.dirAt p = false) : FileSystem γ where
  node q := if q = p then none else fs.node q
  domain := fs.domain
  complete := by
    intro q hq
    by_cases h : q = p
    · simp [h] at hq
    · rw [if_neg h] at hq
      exact fs.complete q hq
  root := by
    rw [if_neg (ne_of_dir hp fs.root)]
    exact fs.root
  parent := by
    intro q n hq
    have hold : fs.node q = some .dir := by
      by_cases h : q ++ [n] = p
      · simp [h] at hq
      · rw [if_neg h] at hq
        exact fs.parent q n hq
    rw [if_neg (ne_of_dir hp hold)]
    exact hold

@[simp] theorem node_bind (x : Node γ) (hp : fs.Bindable p) (q : Path) :
    (fs.bind p x hp).node q = if q = p then some x else fs.node q := rfl

@[simp] theorem node_unbind (hp : fs.dirAt p = false) (q : Path) :
    (fs.unbind p hp).node q = if q = p then none else fs.node q := rfl

def put (x : Node γ) : Except Errno (FileSystem γ) :=
  if h : fs.Bindable p then .ok (fs.bind p x h)
  else if fs.dirAt p then .error .isdir
  else .error .noent

def empty : FileSystem γ where
  node p := if p = [] then some .dir else none
  domain := [[]]
  complete := by
    intro p hp
    split_ifs at hp with h
    · exact h ▸ mem_cons_self
    · cases hp
  root := if_pos rfl
  parent := by
    intro p n hp
    rw [if_neg (append_ne_nil_of_right_ne_nil _ (cons_ne_nil _ _))] at hp
    cases hp

def populate (nodes : List (Path × Node γ)) : FileSystem γ :=
  nodes.foldl (fun fs node => (fs.put node.1 node.2).toOption.getD fs) empty

variable {q : Path}

theorem node_populate {nodes : List (Path × Node γ)} {x : Node γ}
    (h : (populate nodes).node q = some x) : q = [] ∧ x = .dir ∨ (q, x) ∈ nodes := by
  have hfold : ∀ (nodes : List (Path × Node γ)) (fs : FileSystem γ),
      (nodes.foldl (fun fs node => (fs.put node.1 node.2).toOption.getD fs) fs).node q = some x →
      fs.node q = some x ∨ (q, x) ∈ nodes := by
    intro nodes
    induction nodes with
    | nil => exact fun fs h => .inl h
    | cons node nodes ih =>
      intro fs h
      rcases ih _ h with h | h
      · unfold put at h
        dsimp only at h
        split_ifs at h with hbind
        · dsimp only [Except.toOption, getD_some] at h
          rw [node_bind] at h
          split_ifs at h with hq
          · exact .inr (by rw [hq, ← some.inj h]; exact mem_cons_self)
          · exact .inl h
        · exact .inl h
        · exact .inl h
      · exact .inr (mem_cons_of_mem _ h)
  rcases hfold nodes empty h with h | h
  · unfold empty at h
    dsimp only at h
    split_ifs at h with hq
    exact .inl ⟨hq, (some.inj h).symm⟩
  · exact .inr h

/-! ## Calls -/

def nodeAt (follow : Bool) (path : Path) : Except Errno (Path × Node γ) :=
  match fs.resolve follow path with
  | .error e => .error e
  | .ok (.free _ _) => .error .noent
  | .ok (.found p) =>
    match fs.node p with
    | some x => .ok (p, x)
    | none => .error .noent

variable (path : Path)

def lstat : Except Errno (Node γ) := (fs.nodeAt false path).map Prod.snd

def stat : Except Errno (Node γ) := (fs.nodeAt true path).map Prod.snd

def pathExists : Bool := (fs.stat path).isOk

def isDir : Bool :=
  match fs.stat path with
  | .ok .dir => true
  | _ => false

def readFile : Except Errno γ :=
  match fs.stat path with
  | .error e => .error e
  | .ok (.file data) => .ok data
  | .ok _ => .error .isdir

def unlink : Except Errno (FileSystem γ) :=
  match fs.nodeAt false path with
  | .error e => .error e
  | .ok (p, _) => if h : fs.dirAt p = false then .ok (fs.unbind p h) else .error .isdir

/-- `rename` of a file or a link; a directory is not replaced. -/
def rename (src dst : Path) : Except Errno (FileSystem γ) :=
  match fs.nodeAt false src, fs.resolve false dst with
  | .error e, _ => .error e
  | .ok _, .error e => .error e
  | .ok (p, x), .ok place =>
    if p = place.path then .ok fs
    else if h : fs.dirAt p = false then (fs.unbind p h).put place.path x
    else .error .isdir

def mkdir : Except Errno (FileSystem γ) :=
  match fs.resolve false path with
  | .error e => .error e
  | .ok (.found _) => .error .exist
  | .ok (.free dir name) => fs.put (dir ++ [name]) .dir

/-- A directory and what is missing on the way to it, as in `DirBuilder` of Rust: the directory
itself is tried first, and the one above it if there is nothing to make it in. The argument is the
path read backwards. -/
def createDirAllRev : List String → FileSystem γ → Except Errno (FileSystem γ)
  | [], fs => .ok fs
  | name :: above, fs =>
    let path := (name :: above).reverse
    match fs.mkdir path with
    | .ok fs => .ok fs
    | .error .noent =>
      match createDirAllRev above fs with
      | .error e => .error e
      | .ok fs =>
        match fs.mkdir path with
        | .ok fs => .ok fs
        | .error e => if fs.isDir path then .ok fs else .error e
    | .error e => if fs.isDir path then .ok fs else .error e

def createDirAll : Except Errno (FileSystem γ) := createDirAllRev path.reverse fs

def symlink (target : String) (path : Path) : Except Errno (FileSystem γ) :=
  match fs.resolve false path with
  | .error e => .error e
  | .ok (.found _) => .error .exist
  | .ok (.free dir name) => fs.put (dir ++ [name]) (.link target)

def link (src dst : Path) : Except Errno (FileSystem γ) :=
  match fs.nodeAt false src, fs.resolve false dst with
  | .error e, _ => .error e
  | .ok _, .error e => .error e
  | .ok _, .ok (.found _) => .error .exist
  | .ok (_, .dir), .ok (.free _ _) => .error .isdir
  | .ok (_, x), .ok (.free dir name) => fs.put (dir ++ [name]) x

def writeFile (data : Option γ → γ) : Except Errno (FileSystem γ) :=
  match fs.resolve true path with
  | .error e => .error e
  | .ok place =>
    match fs.node place.path with
    | some (.file old) => fs.put place.path (.file (data (some old)))
    | _ => fs.put place.path (.file (data none))

def modifyFile (f : γ → γ) : Except Errno (FileSystem γ) :=
  match fs.nodeAt true path with
  | .error e => .error e
  | .ok (p, .file data) => fs.put p (.file (f data))
  | .ok (_, _) => .ok fs

section Ancestors

variable {fs} {p q : Path} {x : Node γ}

theorem dir_of_below (hp : (fs.node p).isSome) (hq : q <+: p) (hne : q ≠ p) :
    fs.node q = some .dir := by
  obtain ⟨t, rfl⟩ := hq
  induction t using List.reverseRecOn with
  | nil => exact absurd (append_nil q).symm hne
  | append_singleton t n ih =>
    rw [← append_assoc] at hp
    have hdir := fs.parent _ _ hp
    by_cases ht : t = []
    · rwa [ht, append_nil] at hdir
    · refine ih (by rw [hdir]; rfl) ?_
      simpa using ht

theorem dir_of_prefix_dir (hp : fs.node p = some .dir) (hq : q <+: p) : fs.node q = some .dir := by
  by_cases hne : q = p
  · rwa [hne]
  · exact dir_of_below (by rw [hp]; rfl) hq hne

theorem node_below (hp : fs.node p ≠ some .dir) (hq : p <+: q) (hne : p ≠ q) : fs.node q = none := by
  by_contra hnode
  exact hp (dir_of_below (isSome_iff_ne_none.mpr hnode) hq hne)

end Ancestors

/-! ## Paths without links on the way -/

variable {name : String}

section Plain

variable {fs} {cur p : Path} {x : Node γ} {follow : Bool}
variable {jump : Path → List Step → Except Errno Place}

theorem walk_dirs {ns : List String} {rest : List Step} (h : fs.node (cur ++ ns) = some .dir) :
    fs.walk follow jump cur (ns.map .name ++ rest) = fs.walk follow jump (cur ++ ns) rest := by
  induction ns generalizing cur with
  | nil => rw [map_nil, nil_append, append_nil]
  | cons n ns ih =>
    have hassoc : cur ++ n :: ns = cur ++ [n] ++ ns := by simp
    have hdir : fs.node (cur ++ [n]) = some .dir :=
      dir_of_prefix_dir h (by rw [hassoc]; exact prefix_append _ _)
    rw [hassoc] at h ⊢
    rw [map_cons, cons_append, walk, hdir]
    exact ih h

theorem resolve_concat {dir : Path} (h : fs.node dir = some .dir) :
    fs.resolve follow (dir ++ [name]) =
      fs.walk follow (fs.resolveFrom follow (maxLinks - 1)) dir [.name name] := by
  show fs.walk follow (fs.resolveFrom follow (maxLinks - 1)) [] _ = _
  have hdir : fs.node ([] ++ dir) = some .dir := h
  rw [map_append, walk_dirs hdir]
  rfl

theorem resolve_dir (h : fs.node p = some .dir) : fs.resolve follow p = .ok (.found p) := by
  show fs.walk follow (fs.resolveFrom follow (maxLinks - 1)) [] _ = _
  have hdir : fs.node ([] ++ p) = some .dir := h
  rw [← append_nil (p.map Step.name), walk_dirs hdir, walk, nil_append]

theorem resolve_of_node (h : fs.node p = some x) (hlink : follow = true → ∀ t, x ≠ .link t) :
    fs.resolve follow p = .ok (.found p) := by
  rcases eq_nil_or_concat' p with rfl | ⟨dir, name, rfl⟩
  · exact resolve_dir fs.root
  · have hdir : fs.node dir = some .dir := fs.parent dir name (by rw [h]; rfl)
    rw [resolve_concat hdir, walk, h]
    cases x with
    | dir => rfl
    | file data => rfl
    | link t =>
      have hfollow : follow = false := by
        cases follow with
        | false => rfl
        | true => exact absurd rfl (hlink rfl t)
      exact if_pos ⟨rfl, hfollow⟩

theorem resolve_of_free {dir : Path} (hdir : fs.node dir = some .dir)
    (h : fs.node (dir ++ [name]) = none) :
    fs.resolve follow (dir ++ [name]) = .ok (.free dir name) := by
  rw [resolve_concat hdir, walk, h]
  rfl

def Plain (fs : FileSystem γ) (p : Path) : Prop :=
  ∀ q, q <+: p → q ≠ p → ∀ t, fs.node q ≠ some (.link t)

instance (fs : FileSystem γ) (p : Path) : Decidable (Plain fs p) :=
  decidable_of_iff (∀ q ∈ p.inits, q ≠ p →
      (match fs.node q with
        | some (.link _) => true
        | _ => false) = false) <| by
    refine forall_congr' fun q => imp_congr (mem_inits q p) (imp_congr_right fun _ => ?_)
    cases hq : fs.node q with
    | none => exact ⟨fun _ _ => nofun, fun _ => rfl⟩
    | some x =>
      cases x with
      | link t => exact ⟨nofun, fun h => absurd rfl (h t)⟩
      | _ => exact ⟨fun _ _ => nofun, fun _ => rfl⟩

theorem walk_stops {ns : List String} (hplain : Plain fs (cur ++ ns)) (hcur : fs.node cur = some .dir)
    (h : fs.node (cur ++ ns).dropLast ≠ some .dir) :
    fs.walk follow jump cur (ns.map .name) = .error .noent ∧
        (∀ q, q <+: (cur ++ ns).dropLast → ∀ d, fs.node q ≠ some (.file d)) ∨
      fs.walk follow jump cur (ns.map .name) = .error .notdir ∧
        ∃ q d, q <+: (cur ++ ns).dropLast ∧ fs.node q = some (.file d) := by
  induction ns generalizing cur with
  | nil =>
    rw [append_nil] at h
    exact absurd (dir_of_prefix_dir hcur (List.dropLast_prefix cur)) h
  | cons n ns ih =>
    have hassoc : cur ++ n :: ns = cur ++ [n] ++ ns := by simp
    rw [hassoc] at hplain h ⊢
    rw [map_cons, walk]
    have hns : ns ≠ [] := by
      rintro rfl
      rw [append_nil, dropLast_concat] at h
      exact h hcur
    have hrest : ns.map Step.name ≠ [] := by simpa using hns
    cases hn : fs.node (cur ++ [n]) with
    | none =>
      refine .inl ⟨if_neg hrest, fun q hq d hfile => ?_⟩
      rw [dropLast_append_of_ne_nil hns] at hq
      -- what is above the missing name is a directory, and nothing is below it
      rcases List.prefix_or_prefix_of_prefix hq (prefix_append _ _) with hq | hq
      · rcases prefix_concat_iff.mp hq with rfl | hq
        · rw [hn] at hfile
          cases hfile
        · rw [dir_of_prefix_dir hcur hq] at hfile
          cases hfile
      · by_cases heq : cur ++ [n] = q
        · rw [← heq, hn] at hfile
          cases hfile
        · rw [node_below (by rw [hn]; exact fun h => by cases h) hq heq] at hfile
          cases hfile
    | some y =>
      cases y with
      | dir => exact ih hplain hn h
      | file data =>
        refine .inr ⟨if_neg hrest, cur ++ [n], data, ?_, hn⟩
        rw [dropLast_append_of_ne_nil hns]
        exact prefix_append _ _
      | link t =>
        have hne : cur ++ [n] ≠ cur ++ [n] ++ ns := by simpa using hns
        exact absurd hn (hplain _ (prefix_append _ _) hne t)

/-- On a path without links on the way, the directory of the last name is missing, or there is a file
in the place of a directory. -/
theorem resolve_stops (follow : Bool) {dir : Path} (hplain : Plain fs (dir ++ [name]))
    (h : fs.node dir ≠ some .dir) :
    fs.resolve follow (dir ++ [name]) = .error .noent ∧
        (∀ q, q <+: dir → ∀ d, fs.node q ≠ some (.file d)) ∨
      fs.resolve follow (dir ++ [name]) = .error .notdir ∧
        ∃ q d, q <+: dir ∧ fs.node q = some (.file d) := by
  have hstops : fs.resolve follow (dir ++ [name]) = .error .noent ∧ _ ∨ _ :=
    walk_stops hplain fs.root (by rwa [nil_append, dropLast_concat])
  rwa [nil_append, dropLast_concat] at hstops

theorem nodeAt_of_node (h : fs.node p = some x) (hlink : follow = true → ∀ t, x ≠ .link t) :
    fs.nodeAt follow p = .ok (p, x) := by
  rw [nodeAt, resolve_of_node h hlink]
  dsimp only
  rw [h]

theorem nodeAt_false (h : fs.node p = some x) : fs.nodeAt false p = .ok (p, x) :=
  nodeAt_of_node h fun hf => Bool.noConfusion hf

theorem nodeAt_of_none (hplain : Plain fs p) (h : fs.node p = none) :
    ∃ e, fs.nodeAt follow p = .error e := by
  rcases eq_nil_or_concat' p with rfl | ⟨dir, name, rfl⟩
  · rw [fs.root] at h
    cases h
  · by_cases hdir : fs.node dir = some .dir
    · refine ⟨.noent, ?_⟩
      rw [nodeAt, resolve_of_free hdir h]
    · rcases resolve_stops follow hplain hdir with ⟨he, -⟩ | ⟨he, -⟩
      · exact ⟨.noent, by rw [nodeAt, he]⟩
      · exact ⟨.notdir, by rw [nodeAt, he]⟩

end Plain

/-! ## What the calls do on paths without links on the way -/

section Calls

variable {fs} {fs' : FileSystem γ} {p : Path} {x : Node γ}

theorem put_ok_iff : fs.put p x = .ok fs' ↔ ∃ h, fs' = fs.bind p x h := by
  unfold put
  split_ifs with h hdir
  · simp only [Except.ok.injEq, h, exists_true_left]
    exact eq_comm
  · exact iff_of_false nofun fun ⟨h', _⟩ => h h'
  · exact iff_of_false nofun fun ⟨h', _⟩ => h h'

theorem bindable_of_node (h : fs.node p = some x) (hx : x ≠ .dir) : fs.Bindable p := by
  rcases eq_nil_or_concat' p with rfl | ⟨dir, name, rfl⟩
  · rw [fs.root] at h
    cases h
    exact absurd rfl hx
  · refine ⟨by simp, ?_, ?_⟩
    · rw [dropLast_concat, dirAt_iff]
      exact fs.parent dir name (by rw [h]; rfl)
    · rw [← Bool.not_eq_true, dirAt_iff, h]
      simpa using hx

theorem lstat_of_node (h : fs.node p = some x) : fs.lstat p = .ok x := by
  rw [lstat, nodeAt_false h]
  rfl

theorem lstat_of_none (hplain : Plain fs p) (h : fs.node p = none) : ∃ e, fs.lstat p = .error e := by
  obtain ⟨e, he⟩ : ∃ e, fs.nodeAt false p = .error e := nodeAt_of_none hplain h
  exact ⟨e, by rw [lstat, he]; rfl⟩

theorem stat_of_node (h : fs.node p = some x) (hlink : ∀ t, x ≠ .link t) : fs.stat p = .ok x := by
  rw [stat, nodeAt_of_node h fun _ => hlink]
  rfl

theorem stat_of_none (hplain : Plain fs p) (h : fs.node p = none) : ∃ e, fs.stat p = .error e := by
  obtain ⟨e, he⟩ : ∃ e, fs.nodeAt true p = .error e := nodeAt_of_none hplain h
  exact ⟨e, by rw [stat, he]; rfl⟩

theorem pathExists_of_node (h : fs.node p = some x) (hlink : ∀ t, x ≠ .link t) :
    fs.pathExists p = true := by
  rw [pathExists, stat_of_node h hlink]
  rfl

theorem pathExists_of_none (hplain : Plain fs p) (h : fs.node p = none) : fs.pathExists p = false := by
  obtain ⟨e, he⟩ := stat_of_none hplain h
  rw [pathExists, he]
  rfl

theorem dirAt_false (h : fs.node p = some x) (hx : x ≠ .dir) : fs.dirAt p = false :=
  (bindable_of_node h hx).2.2

theorem unlink_of_node (h : fs.node p = some x) (hx : x ≠ .dir) :
    fs.unlink p = .ok (fs.unbind p (dirAt_false h hx)) := by
  rw [unlink, nodeAt_false h]
  exact dif_pos (dirAt_false h hx)

theorem unlink_of_dir (h : fs.node p = some .dir) : fs.unlink p = .error .isdir := by
  rw [unlink, nodeAt_false h]
  exact dif_neg (by rw [dirAt_iff.mpr h]; exact Bool.noConfusion)

variable {follow : Bool}

theorem resolve_path (hp : p ≠ []) (hdir : fs.node p.dropLast = some .dir)
    (hlink : follow = true → ∀ t, fs.node p ≠ some (.link t)) :
    ∃ place, fs.resolve follow p = .ok place ∧ place.path = p := by
  cases hnode : fs.node p with
  | some y =>
    refine ⟨.found p, resolve_of_node hnode fun hf t ht => hlink hf t ?_, rfl⟩
    rw [hnode, ht]
  | none =>
    rcases eq_nil_or_concat' p with rfl | ⟨dir, name, rfl⟩
    · exact absurd rfl hp
    · rw [dropLast_concat] at hdir
      exact ⟨.free dir name, resolve_of_free hdir hnode, rfl⟩

theorem rename_of_node (h : fs.node p = some x) (hx : x ≠ .dir) (hne : p ≠ q)
    (hq : fs.Bindable q) : ∃ fs', fs.rename p q = .ok fs' ∧
      ∀ r, fs'.node r = if r = q then some x else if r = p then none else fs.node r := by
  have hdir := dirAt_iff.mp hq.2.1
  obtain ⟨place, hplace, rfl⟩ : ∃ place, fs.resolve false q = .ok place ∧ place.path = q :=
    resolve_path hq.1 hdir fun hf => Bool.noConfusion hf
  have hpne : place.path.dropLast ≠ p := by
    rintro rfl
    exact hx (some.inj (h.symm.trans hdir))
  have hbind : (fs.unbind p (dirAt_false h hx)).Bindable place.path := by
    refine ⟨hq.1, ?_, ?_⟩
    · rw [dirAt_iff, node_unbind, if_neg hpne]
      exact hdir
    · rw [← Bool.not_eq_true, dirAt_iff, node_unbind, if_neg hne.symm, ← dirAt_iff, hq.2.2]
      exact Bool.noConfusion
  refine ⟨(fs.unbind p (dirAt_false h hx)).bind place.path x hbind, ?_, fun r => ?_⟩
  · rw [rename, nodeAt_false h, hplace]
    dsimp only
    rw [if_neg hne, dif_pos (dirAt_false h hx), put, dif_pos hbind]
  · rw [node_bind, node_unbind]

theorem rename_of_dir (h : fs.node p = some x) (hx : x ≠ .dir)
    (hq : fs.node q = some .dir) : ∃ e, fs.rename p q = .error e := by
  have hne : p ≠ q := by
    rintro rfl
    exact hx (some.inj (h.symm.trans hq))
  refine ⟨.isdir, ?_⟩
  rw [rename, nodeAt_false h, resolve_dir hq]
  dsimp only
  rw [show (Place.found q).path = q from rfl]
  have hdir : (fs.unbind p (dirAt_false h hx)).dirAt q = true := by
    rw [dirAt_iff, node_unbind, if_neg hne.symm]
    exact hq
  have hbind : ¬ (fs.unbind p (dirAt_false h hx)).Bindable q := by
    rintro ⟨-, -, hfree⟩
    rw [hdir] at hfree
    cases hfree
  rw [if_neg hne, dif_pos (dirAt_false h hx), put, dif_neg hbind, if_pos hdir]

theorem mkdir_of_node (h : fs.node p = some x) : fs.mkdir p = .error .exist := by
  rw [mkdir, resolve_of_node h fun hf => Bool.noConfusion hf]

theorem mkdir_of_free {dir : Path} (hdir : fs.node dir = some .dir)
    (h : fs.node (dir ++ [name]) = none) : ∃ fs', fs.mkdir (dir ++ [name]) = .ok fs' ∧
      ∀ r, fs'.node r = if r = dir ++ [name] then some .dir else fs.node r := by
  have hbind : fs.Bindable (dir ++ [name]) := by
    refine ⟨by simp, ?_, ?_⟩
    · rw [dropLast_concat]
      exact dirAt_iff.mpr hdir
    · rw [← Bool.not_eq_true, dirAt_iff, h]
      exact fun h => by cases h
  refine ⟨fs.bind _ .dir hbind, ?_, fun r => node_bind ..⟩
  rw [mkdir, resolve_of_free hdir h]
  exact dif_pos hbind

theorem isDir_of_dir (h : fs.node p = some .dir) : fs.isDir p = true := by
  rw [isDir, stat_of_node h nofun]

theorem isDir_of_file {d : γ} (h : fs.node p = some (.file d)) : fs.isDir p = false := by
  rw [isDir, stat_of_node h nofun]

theorem isDir_of_none (hplain : Plain fs p) (h : fs.node p = none) : fs.isDir p = false := by
  obtain ⟨e, he⟩ := stat_of_none hplain h
  rw [isDir, he]

theorem createDirAll_concat (dir : Path) (name : String) : fs.createDirAll (dir ++ [name]) =
    match fs.mkdir (dir ++ [name]) with
    | .ok fs => .ok fs
    | .error .noent =>
      match fs.createDirAll dir with
      | .error e => .error e
      | .ok fs =>
        match fs.mkdir (dir ++ [name]) with
        | .ok fs => .ok fs
        | .error e => if fs.isDir (dir ++ [name]) then .ok fs else .error e
    | .error e => if fs.isDir (dir ++ [name]) then .ok fs else .error e := by
  rw [createDirAll, reverse_concat, createDirAllRev]
  simp only [reverse_cons, reverse_reverse, createDirAll]

theorem createDirAll_ok (h : ∀ q, q <+: p → fs.node q = none ∨ fs.node q = some .dir) :
    ∃ fs', fs.createDirAll p = .ok fs' ∧
      ∀ r, fs'.node r = if r <+: p then some .dir else fs.node r := by
  induction p using List.reverseRecOn with
  | nil =>
    refine ⟨fs, rfl, fun r => ?_⟩
    split_ifs with hr
    · rw [prefix_nil.mp hr]
      exact fs.root
    · rfl
  | append_singleton dir name ih =>
    have habove : ∀ q, q <+: dir ++ [name] ↔ q = dir ++ [name] ∨ q <+: dir := fun q =>
      prefix_concat_iff
    rw [createDirAll_concat]
    rcases h (dir ++ [name]) (prefix_refl _) with hnone | hdir
    · by_cases hd : fs.node dir = some .dir
      · obtain ⟨fs', hmk, hnode⟩ := mkdir_of_free hd hnone
        rw [hmk]
        refine ⟨fs', rfl, fun r => ?_⟩
        rw [hnode]
        by_cases hr : r = dir ++ [name]
        · rw [if_pos hr, if_pos ((habove r).mpr (.inl hr))]
        · rw [if_neg hr]
          split_ifs with hpre
          · exact dir_of_prefix_dir hd (((habove r).mp hpre).resolve_left hr)
          · rfl
      · have hplain : Plain fs (dir ++ [name]) := by
          intro q hq _ t ht
          rcases h q hq with hq' | hq' <;> rw [ht] at hq' <;> cases hq'
        have hmk : fs.mkdir (dir ++ [name]) = .error .noent := by
          rcases resolve_stops false hplain hd with ⟨hres, -⟩ | ⟨-, q, d, hq, hfile⟩
          · rw [mkdir, hres]
          · rcases h q (hq.trans (prefix_append _ _)) with hq' | hq' <;> rw [hfile] at hq' <;>
              cases hq'
        obtain ⟨fs1, hcreate, hnode1⟩ := ih fun q hq => h q (hq.trans (prefix_append _ _))
        have hd1 : fs1.node dir = some .dir := by rw [hnode1, if_pos (prefix_refl _)]
        have hnone1 : fs1.node (dir ++ [name]) = none := by
          have hlonger : ¬ dir ++ [name] <+: dir := by
            intro hpre
            have hle := hpre.length_le
            rw [length_append, length_singleton] at hle
            omega
          rw [hnode1, if_neg hlonger, hnone]
        obtain ⟨fs2, hmk2, hnode2⟩ := mkdir_of_free hd1 hnone1
        rw [hmk, hcreate]
        dsimp only
        rw [hmk2]
        refine ⟨fs2, rfl, fun r => ?_⟩
        rw [hnode2, hnode1]
        by_cases hr : r = dir ++ [name]
        · rw [if_pos hr, if_pos ((habove r).mpr (.inl hr))]
        · rw [if_neg hr]
          refine if_congr ?_ rfl rfl
          rw [habove, or_iff_right hr]
    · rw [mkdir_of_node hdir]
      dsimp only
      rw [if_pos (isDir_of_dir hdir)]
      refine ⟨fs, rfl, fun r => ?_⟩
      split_ifs with hr
      · exact dir_of_prefix_dir hdir hr
      · rfl

theorem createDirAll_file {d : γ} (hplain : Plain fs p) (hq : q <+: p)
    (hfile : fs.node q = some (.file d)) : ∃ e, fs.createDirAll p = .error e := by
  rcases eq_nil_or_concat' p with rfl | ⟨dir, name, rfl⟩
  · rw [prefix_nil.mp hq, fs.root] at hfile
    cases hfile
  · rw [createDirAll_concat]
    rcases prefix_concat_iff.mp hq with rfl | hq
    · rw [mkdir_of_node hfile]
      rw [isDir_of_file hfile]
      exact ⟨_, rfl⟩
    · have hnone : fs.node (dir ++ [name]) = none := by
        refine node_below (by rw [hfile]; exact fun h => by cases h)
          (hq.trans (prefix_append _ _)) fun heq => ?_
        have hle := hq.length_le
        rw [heq, length_append, length_singleton] at hle
        omega
      have hdir : fs.node dir ≠ some .dir := by
        intro hdir
        have := dir_of_prefix_dir hdir hq
        rw [hfile] at this
        cases this
      have hnotdir : fs.resolve false (dir ++ [name]) = .error .notdir := by
        rcases resolve_stops false hplain hdir with ⟨-, hnofile⟩ | ⟨hres, -⟩
        · exact absurd hfile (hnofile q hq d)
        · exact hres
      rw [mkdir, hnotdir]
      rw [isDir_of_none hplain hnone]
      exact ⟨_, rfl⟩

/-! ### What a call that works has changed -/

variable {steps : List Step}

theorem walk_free {jump : Path → List Step → Except Errno Place} {cur dir : Path}
    (hjump : ∀ cur steps, jump cur steps = .ok (.free dir name) → fs.node (dir ++ [name]) = none)
    (h : fs.walk follow jump cur steps = .ok (.free dir name)) : fs.node (dir ++ [name]) = none := by
  induction steps generalizing cur with
  | nil => cases h
  | cons step rest ih =>
    cases step with
    | here => exact ih h
    | up => exact ih h
    | name n =>
      rw [walk] at h
      split at h
      · rename_i hnone
        split_ifs at h
        cases h
        exact hnone
      · exact ih h
      · split_ifs at h
        cases h
      · split_ifs at h
        · cases h
        · exact hjump _ _ h

theorem node_of_free {path dir : Path}
    (h : fs.resolve follow path = .ok (.free dir name)) : fs.node (dir ++ [name]) = none := by
  have hfrom : ∀ links cur steps,
      fs.resolveFrom follow links cur steps = .ok (.free dir name) → fs.node (dir ++ [name]) = none := by
    intro links
    induction links with
    | zero => exact fun cur steps h => walk_free (fun _ _ h => by cases h) h
    | succ links ih => exact fun cur steps h => walk_free ih h
  exact hfrom _ _ _ h

variable {path : Path}

theorem nodeAt_ok (h : fs.nodeAt follow path = .ok (p, x)) :
    fs.resolve follow path = .ok (.found p) ∧ fs.node p = some x := by
  unfold nodeAt at h
  split at h
  · cases h
  · cases h
  · rename_i p' hres
    split at h
    · rename_i y hy
      cases h
      exact ⟨hres, hy⟩
    · cases h

theorem unlink_ok (h : fs.unlink path = .ok fs') :
    ∃ p x, fs.nodeAt false path = .ok (p, x) ∧ x ≠ .dir ∧
      ∀ q, fs'.node q = if q = p then none else fs.node q := by
  unfold unlink at h
  split at h
  · cases h
  · rename_i p x hnode
    split_ifs at h with hdir
    cases h
    refine ⟨p, x, hnode, ?_, fun q => node_unbind ..⟩
    rintro rfl
    rw [dirAt_iff.mpr (nodeAt_ok hnode).2] at hdir
    cases hdir

theorem rename_ok {src dst : Path} (h : fs.rename src dst = .ok fs') :
    fs' = fs ∨ ∃ p x place, fs.nodeAt false src = .ok (p, x) ∧ x ≠ .dir ∧
      fs.resolve false dst = .ok place ∧ fs.node place.path ≠ some .dir ∧
      ∀ q, fs'.node q = if q = place.path then some x else if q = p then none else fs.node q := by
  unfold rename at h
  split at h
  · cases h
  · cases h
  · rename_i p x place hnode hplace
    split_ifs at h with heq hdir
    · cases h
      exact .inl rfl
    · obtain ⟨hbind, rfl⟩ := put_ok_iff.mp h
      refine .inr ⟨p, x, place, hnode, ?_, hplace, fun hplace => ?_, fun q => ?_⟩
      · rintro rfl
        rw [dirAt_iff.mpr (nodeAt_ok hnode).2] at hdir
        cases hdir
      · have hfree := hbind.2.2
        rw [← Bool.not_eq_true, dirAt_iff, node_unbind, if_neg (Ne.symm heq)] at hfree
        exact hfree hplace
      · rw [node_bind, node_unbind]

theorem modifyFile_ok {f : γ → γ} (h : fs.modifyFile path f = .ok fs') :
    fs' = fs ∨ ∃ p d, fs.node p = some (.file d) ∧
      ∀ q, fs'.node q = if q = p then some (.file (f d)) else fs.node q := by
  unfold modifyFile at h
  split at h
  · cases h
  · rename_i p d hnode
    obtain ⟨hbind, rfl⟩ := put_ok_iff.mp h
    exact .inr ⟨p, d, (nodeAt_ok hnode).2, fun q => node_bind ..⟩
  · cases h
    exact .inl rfl

theorem path_of_resolve {place : Place} (hp : p ≠ []) (hdir : fs.node p.dropLast = some .dir)
    (h : fs.resolve false p = .ok place) : place.path = p := by
  obtain ⟨place', hplace', hpath⟩ : ∃ place', fs.resolve false p = .ok place' ∧ place'.path = p :=
    resolve_path hp hdir fun hf => Bool.noConfusion hf
  rw [h] at hplace'
  cases hplace'
  exact hpath

theorem path_of_nodeAt (hp : p ≠ []) (hdir : fs.node p.dropLast = some .dir)
    (h : fs.nodeAt false p = .ok (q, x)) : q = p :=
  path_of_resolve hp hdir (nodeAt_ok h).1

theorem path_of_plain (hplain : Plain fs p) (hp : p ≠ [])
    (h : fs.nodeAt false p = .ok (q, x)) : q = p := by
  obtain ⟨dir, name, rfl⟩ := (eq_nil_or_concat' p).resolve_left hp
  by_cases hdir : fs.node dir = some .dir
  · exact path_of_nodeAt hp (by rwa [dropLast_concat]) h
  · have hres := (nodeAt_ok h).1
    rcases resolve_stops false hplain hdir with ⟨herr, -⟩ | ⟨herr, -⟩
    · rw [hres] at herr
      cases herr
    · rw [hres] at herr
      cases herr

variable {hp : fs.dirAt p = false}

/-- A path leads to no more than before once a name has been unbound. -/
theorem walk_unbind {jump jump' : Path → List Step → Except Errno Place} {cur q : Path}
    (hjump : ∀ cur steps, jump' cur steps = .ok (.found q) → jump cur steps = .ok (.found q))
    (h : (fs.unbind p hp).walk follow jump' cur steps = .ok (.found q)) :
    fs.walk follow jump cur steps = .ok (.found q) := by
  induction steps generalizing cur with
  | nil => exact h
  | cons step rest ih =>
    cases step with
    | here => exact ih h
    | up => exact ih h
    | name n =>
      rw [walk, node_unbind] at h
      rw [walk]
      by_cases heq : cur ++ [n] = p
      · rw [if_pos heq] at h
        dsimp only at h
        split_ifs at h
        · cases h
      · rw [if_neg heq] at h
        cases hn : fs.node (cur ++ [n]) with
        | none =>
          rw [hn] at h
          exact h
        | some y =>
          rw [hn] at h
          cases y with
          | dir => exact ih h
          | file d => exact h
          | link t =>
            dsimp only at h ⊢
            split_ifs at h ⊢ with hlast
            · exact h
            · exact hjump _ _ h

theorem resolveFrom_unbind {links : ℕ} {cur q : Path}
    (h : (fs.unbind p hp).resolveFrom follow links cur steps = .ok (.found q)) :
    fs.resolveFrom follow links cur steps = .ok (.found q) := by
  induction links generalizing cur steps with
  | zero => exact walk_unbind (fun _ _ h => by cases h) h
  | succ links ih => exact walk_unbind (fun _ _ h => ih h) h

theorem pathExists_unbind
    (h : (fs.unbind p hp).pathExists path = true) : fs.pathExists path = true := by
  unfold pathExists stat at h ⊢
  cases hnode : (fs.unbind p hp).nodeAt true path with
  | error e =>
    rw [hnode] at h
    cases h
  | ok r =>
    obtain ⟨q, y⟩ := r
    obtain ⟨hres, hy⟩ := nodeAt_ok hnode
    rw [node_unbind] at hy
    split_ifs at hy
    have hres' : fs.resolve true path = .ok (.found q) := resolveFrom_unbind hres
    rw [nodeAt, hres']
    dsimp only
    rw [hy]
    rfl

end Calls

end FileSystem

end Posix
