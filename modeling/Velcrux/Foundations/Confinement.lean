import Velcrux.Foundations.FileSystem

/-!
# Links that stay inside

If every link of a tree is in `V` and leads, by its target alone, to a path of `V`, then a path
cannot leave `V` on its way through the tree. The target of a link may go up only at its start:
after a name, what is above depends on where that name leads.
-/

namespace Posix

open List

variable {cur : Path} {steps : List Step}

def descend : Path → List Step → Option Path
  | cur, [] => some cur
  | cur, .here :: rest => descend cur rest
  | _, .up :: _ => none
  | cur, .name n :: rest => descend (cur ++ [n]) rest

def straight : Path → List Step → Option Path
  | cur, [] => some cur
  | cur, .here :: rest => straight cur rest
  | cur, .up :: rest => straight cur.dropLast rest
  | cur, .name n :: rest => descend (cur ++ [n]) rest

theorem descend_names (cur ns : Path) : descend cur (ns.map .name) = some (cur ++ ns) := by
  induction ns generalizing cur with
  | nil => rw [append_nil]; rfl
  | cons n ns ih =>
    rw [map_cons, descend, ih, append_assoc]
    rfl

theorem descend_some {p : Path} (h : descend cur steps = some p) :
    ∃ below, p = cur ++ below ∧ ∀ start, descend start steps = some (start ++ below) := by
  induction steps generalizing cur with
  | nil =>
    refine ⟨[], ?_, fun start => by rw [append_nil]; rfl⟩
    rw [append_nil]
    exact (Option.some.inj h).symm
  | cons step rest ih =>
    cases step with
    | here => exact ih h
    | up => cases h
    | name n =>
      obtain ⟨below, rfl, hbelow⟩ := ih h
      refine ⟨n :: below, by rw [append_assoc]; rfl, fun start => ?_⟩
      rw [descend, hbelow, append_assoc]
      rfl

theorem straight_of_descend {p : Path} (h : descend cur steps = some p) :
    straight cur steps = some p := by
  induction steps with
  | nil => exact h
  | cons step rest ih =>
    cases step with
    | here => exact ih h
    | up => cases h
    | name n => exact h

theorem descend_append {p q : Path} {rest : List Step} (h : descend cur steps = some p)
    (hrest : descend p rest = some q) : descend cur (steps ++ rest) = some q := by
  induction steps generalizing cur with
  | nil =>
    cases h
    exact hrest
  | cons step steps ih =>
    cases step with
    | here => exact ih h
    | up => cases h
    | name n => exact ih h

theorem straight_append {p q : Path} {rest : List Step} (h : straight cur steps = some p)
    (hrest : descend p rest = some q) : straight cur (steps ++ rest) = some q := by
  induction steps generalizing cur with
  | nil =>
    cases h
    exact straight_of_descend hrest
  | cons step steps ih =>
    cases step with
    | here => exact ih h
    | up => exact ih h
    | name n => exact descend_append h hrest

theorem straight_names (ns : Path) : straight [] (ns.map .name) = some ns :=
  straight_of_descend (descend_names [] ns)

def Contained (V : Path → Prop) (q : Path) (target : String) : Prop :=
  targetStart q.dropLast target = q.dropLast ∧ ∃ p, straight q.dropLast (targetSteps target) = some p ∧ V p

namespace FileSystem

variable {γ : Type} {fs fs' fs'' : FileSystem γ} {V W : Path → Prop} {p q path : Path} {follow : Bool}

def Confined (V : Path → Prop) (fs : FileSystem γ) : Prop :=
  ∀ q t, fs.node q = some (.link t) → V q ∧ Contained V q t

def Upward (V : Path → Prop) : Prop := ∀ p q, V p → p <+: q → V q

theorem Confined.of_links (h : Confined V fs)
    (hsame : ∀ q t, fs'.node q = some (.link t) → fs.node q = some (.link t)) : Confined V fs' :=
  fun q t hq => h q t (hsame q t hq)

section Resolution

variable (hV : Upward V) (hVW : ∀ p, V p → W p) (hconf : Confined V fs)
include hV hVW hconf

theorem walk_within {jump : Path → List Step → Except Errno Place} {place : Place}
    (hjump : ∀ cur steps p place, straight cur steps = some p → W p → jump cur steps = .ok place →
      W place.path)
    (h : straight cur steps = some p) (hp : W p) (hwalk : fs.walk follow jump cur steps = .ok place) :
    W place.path := by
  induction steps generalizing cur with
  | nil =>
    cases h
    cases hwalk
    exact hp
  | cons step rest ih =>
    cases step with
    | here => exact ih h hwalk
    | up => exact ih h hwalk
    | name n =>
      have hend : rest = [] → p = cur ++ [n] := by
        rintro rfl
        exact (Option.some.inj h).symm
      rw [walk] at hwalk
      cases hx : fs.node (cur ++ [n]) with
      | none =>
        rw [hx] at hwalk
        dsimp only at hwalk
        split_ifs at hwalk with hrest
        cases hwalk
        rw [hend hrest] at hp
        exact hp
      | some x =>
        rw [hx] at hwalk
        cases x with
        | dir => exact ih (straight_of_descend h) hwalk
        | file d =>
          dsimp only at hwalk
          split_ifs at hwalk with hrest
          cases hwalk
          exact hend hrest ▸ hp
        | link t =>
          dsimp only at hwalk
          split_ifs at hwalk with hrest
          · cases hwalk
            exact hend hrest.1 ▸ hp
          · -- the rest of the way begins where the target of the link ends
            obtain ⟨-, hstart, target, htarget, hin⟩ := hconf _ _ hx
            rw [dropLast_concat] at hstart htarget
            obtain ⟨below, rfl, hbelow⟩ := descend_some h
            rw [hstart] at hwalk
            refine hjump _ _ (target ++ below) place (straight_append htarget (hbelow target)) ?_ hwalk
            exact hVW _ (hV _ _ hin (prefix_append _ _))

theorem resolve_within (hp : W p) {place : Place} (h : fs.resolve follow p = .ok place) :
    W place.path := by
  have hfrom : ∀ links cur steps q place, straight cur steps = some q → W q →
      fs.resolveFrom follow links cur steps = .ok place → W place.path := by
    intro links
    induction links with
    | zero =>
      intro cur steps q place hq hin hres
      exact walk_within hV hVW hconf (fun _ _ _ _ _ _ h => by cases h) hq hin hres
    | succ links ih =>
      intro cur steps q place hq hin hres
      exact walk_within hV hVW hconf ih hq hin hres
  exact hfrom _ _ _ p place (straight_names p) hp h

end Resolution

/-! ## Calls -/

def Grows (W : Path → Prop) (fs fs' : FileSystem γ) : Prop :=
  ∀ q, fs'.node q = fs.node q ∨ fs.node q = none ∧ fs'.node q = some .dir ∧ W q

theorem Grows.refl : Grows W fs fs := fun _ => .inl rfl

theorem Grows.trans (h1 : Grows W fs fs') (h2 : Grows W fs' fs'') : Grows W fs fs'' := by
  intro q
  rcases h2 q with h | ⟨hnone, hdir, hq⟩
  · rw [h]
    exact h1 q
  · rcases h1 q with h | ⟨-, hdir', -⟩
    · exact .inr ⟨h ▸ hnone, hdir, hq⟩
    · rw [hdir'] at hnone
      cases hnone

theorem Grows.confined (h : Grows W fs fs') (hconf : Confined V fs) : Confined V fs' := by
  refine hconf.of_links fun q t hq => ?_
  rcases h q with heq | ⟨-, hdir, -⟩
  · exact heq ▸ hq
  · rw [hdir] at hq
    cases hq

theorem mkdir_ok (h : fs.mkdir path = .ok fs') : ∃ place, fs.resolve false path = .ok place ∧
    fs.node place.path = none ∧ ∀ q, fs'.node q = if q = place.path then some .dir else fs.node q := by
  unfold mkdir at h
  split at h
  · cases h
  · cases h
  · rename_i dir name hres
    obtain ⟨hbind, rfl⟩ := put_ok_iff.mp h
    exact ⟨_, hres, node_of_free hres, fun q => node_bind ..⟩

theorem symlink_ok {target : String} (h : fs.symlink target path = .ok fs') :
    ∃ place, fs.resolve false path = .ok place ∧
      ∀ q, fs'.node q = if q = place.path then some (.link target) else fs.node q := by
  unfold symlink at h
  split at h
  · cases h
  · cases h
  · rename_i dir name hres
    obtain ⟨hbind, rfl⟩ := put_ok_iff.mp h
    exact ⟨_, hres, fun q => node_bind ..⟩

theorem link_ok {src dst : Path} (h : fs.link src dst = .ok fs') :
    ∃ p x place, fs.nodeAt false src = .ok (p, x) ∧ fs.resolve false dst = .ok place ∧
      ∀ q, fs'.node q = if q = place.path then some x else fs.node q := by
  unfold link at h
  split at h
  · cases h
  · cases h
  · cases h
  · cases h
  · rename_i p x dir name _ hnode hres
    obtain ⟨hbind, rfl⟩ := put_ok_iff.mp h
    exact ⟨p, x, _, hnode, hres, fun q => node_bind ..⟩

theorem writeFile_ok {data : Option γ → γ} (h : fs.writeFile path data = .ok fs') :
    ∃ place old, fs.resolve true path = .ok place ∧
      ∀ q, fs'.node q = if q = place.path then some (.file (data old)) else fs.node q := by
  unfold writeFile at h
  split at h
  · cases h
  · rename_i place hres
    split at h
    · obtain ⟨hbind, rfl⟩ := put_ok_iff.mp h
      exact ⟨place, _, hres, fun q => node_bind ..⟩
    · obtain ⟨hbind, rfl⟩ := put_ok_iff.mp h
      exact ⟨place, none, hres, fun q => node_bind ..⟩

section Calls

variable (hV : Upward V) (hVW : ∀ p, V p → W p)
include hV hVW

theorem mkdir_grows (hconf : Confined V fs) (hp : W p) (h : fs.mkdir p = .ok fs') :
    Grows W fs fs' := by
  obtain ⟨place, hres, hnone, hafter⟩ := mkdir_ok h
  intro q
  rw [hafter]
  split_ifs with hq
  · exact .inr ⟨hq ▸ hnone, rfl, hq ▸ resolve_within hV hVW hconf hp hres⟩
  · exact .inl rfl

theorem createDirAll_grows (hconf : Confined V fs) (hp : ∀ q, q <+: p → W q)
    (h : fs.createDirAll p = .ok fs') : Grows W fs fs' := by
  induction p using List.reverseRecOn generalizing fs fs' with
  | nil =>
    cases h
    exact Grows.refl
  | append_singleton dir name ih =>
    rw [createDirAll_concat] at h
    have hself : W (dir ++ [name]) := hp _ prefix_rfl
    split at h
    · rename_i fs1 hmk
      cases h
      exact mkdir_grows hV hVW hconf hself hmk
    · split at h
      · cases h
      · rename_i fs1 habove
        have hgrow := ih hconf (fun q hq => hp q (hq.trans (prefix_append _ _))) habove
        split at h
        · rename_i fs2 hmk
          cases h
          exact hgrow.trans (mkdir_grows hV hVW (hgrow.confined hconf) hself hmk)
        · split_ifs at h
          cases h
          exact hgrow
    · split_ifs at h
      cases h
      exact Grows.refl

end Calls

end FileSystem

end Posix
