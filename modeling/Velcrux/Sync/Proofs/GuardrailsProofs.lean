import Velcrux.Sync.Guardrails

/-!
# Which deletions stay below the root

The test for protected directories looks at the text, where a dot component hides what follows it.
-/

namespace Velcrux.Sync

open List

variable {path root rel clean : List Char}

theorem pathNames_append (xs ys : List (List Char)) :
    pathNames (xs ++ ys) = pathNames xs ++ pathNames ys :=
  filter_append ..

def nameComponents (path : List Char) : List PathComponent :=
  (pathNames (path.splitOn '/')).map fun name =>
    if name = ['.', '.'] then .parentDir else .normal name

theorem plainComponents_eq (path : List Char) :
    plainComponents path =
      (if path.head? = some '/' then [.rootDir] else []) ++ nameComponents path := by
  have hnames : (nameComponents path).filter (fun c => c ≠ .curDir) = nameComponents path := by
    refine filter_eq_self.2 fun c hc => ?_
    obtain ⟨name, -, rfl⟩ := mem_map.1 hc
    split_ifs <;> simp
  rw [plainComponents, pathComponents, filter_append, ← nameComponents, hnames]
  split_ifs <;> simp

theorem nameComponents_slash (root rel : List Char) :
    nameComponents (root ++ '/' :: rel) = nameComponents root ++ nameComponents rel := by
  rw [nameComponents, splitOn_append_cons_self, pathNames_append, map_append]
  rfl

@[simp] theorem nameComponents_nil : nameComponents [] = [] := rfl

theorem plainComponents_join (h : rel.head? ≠ some '/') :
    plainComponents (joinPath root rel) = plainComponents root ++ nameComponents rel := by
  rw [joinPath, if_neg h]
  rcases eq_nil_or_concat root with rfl | ⟨init, c, hroot⟩
  · simp [plainComponents_eq, h]
  · rw [concat_eq_append] at hroot
    subst hroot
    have hhead (more : List Char) : (init ++ [c] ++ more).head? = (init ++ [c]).head? := by
      cases init <;> rfl
    by_cases hc : c = '/'
    · subst hc
      rw [if_pos (.inr List.getLast?_concat), plainComponents_eq, plainComponents_eq]
      simp [nameComponents_slash]
    · rw [if_neg (by simp [hc]), plainComponents_eq, plainComponents_eq, hhead,
        nameComponents_slash, append_assoc]

theorem any_components_iff (h : clean.head? ≠ some '/') :
    ((pathComponents clean).any fun c => c = .parentDir ∨ c = .rootDir) = true ↔
      ['.', '.'] ∈ pathNames (clean.splitOn '/') := by
  simp only [pathComponents, any_append, any_map, Bool.or_eq_true,
    any_eq_true]
  constructor
  · rintro (⟨c, hc, hbad⟩ | ⟨name, hname, hbad⟩)
    · split_ifs at hc <;> simp_all
    · by_cases hdots : name = ['.', '.'] <;> simp_all
  · exact fun hdots => .inr ⟨_, hdots, by simp⟩

theorem eq_of_splitOn {first : List Char} {tail : List (List Char)}
    (h : clean.splitOn '/' = first :: tail) :
    (tail = [] ∧ clean = first) ∨ (tail ≠ [] ∧ ∃ more, clean = first ++ '/' :: more) := by
  have hjoin : ['/'].intercalate (clean.splitOn '/') = clean := intercalate_splitOn '/'
  rw [h] at hjoin
  cases tail with
  | nil => exact .inl ⟨rfl, by simpa [List.intercalate] using hjoin.symm⟩
  | cons second tail =>
    refine .inr ⟨by simp, ['/'].intercalate (second :: tail), ?_⟩
    simpa [List.intercalate] using hjoin.symm

theorem nameComponents_of_notMem (h : ['.', '.'] ∉ pathNames (path.splitOn '/')) :
    nameComponents path = (pathNames (path.splitOn '/')).map .normal := by
  refine map_congr_left fun name hname => if_neg ?_
  rintro rfl
  exact h hname

structure Passes (clean : List Char) : Prop where
  nonempty : clean ≠ []
  not_dot : clean ≠ ['.']
  relative : clean.head? ≠ some '/'
  unprotected : ∀ dir ∈ protectedDirs, ¬ dir <+: clean
  no_parent : ['.', '.'] ∉ pathNames (clean.splitOn '/')

theorem validateDeletionPath_eq_ok_iff (relPath : String) (dstRoot q : List Char) :
    validateDeletionPath relPath dstRoot = .ok q ↔
      Passes (cleanPath relPath) ∧ joinPath dstRoot (cleanPath relPath) = q := by
  rw [validateDeletionPath]
  constructor
  · intro h
    split_ifs at h with hescape hprotected hparent
    simp only [not_or] at hescape
    obtain ⟨hnil, hdot, -, hhead⟩ := hescape
    rw [any_components_iff hhead] at hparent
    refine ⟨⟨hnil, hdot, hhead, fun dir hdir hpre => hprotected ?_, hparent⟩, Except.ok.inj h⟩
    exact any_eq_true.2 ⟨dir, hdir, by simpa using hpre⟩
  · rintro ⟨h, rfl⟩
    have hparents : cleanPath relPath ≠ ['.', '.'] := fun heq => h.no_parent (by rw [heq]; decide)
    rw [if_neg (by simp [h.nonempty, h.not_dot, h.relative, hparents]), if_neg,
      if_neg (by rw [any_components_iff h.relative]; exact h.no_parent)]
    intro hprotected
    obtain ⟨dir, hdir, hpre⟩ := any_eq_true.1 hprotected
    exact h.unprotected dir hdir (by simpa using hpre)

theorem staysBelow_iff_names (relPath : String) (dstRoot : List Char) :
    StaysBelow relPath dstRoot ↔ (Passes (cleanPath relPath) →
      ∃ name rest, pathNames ((cleanPath relPath).splitOn '/') = name :: rest ∧
        name ∉ protectedDirs) := by
  constructor
  · intro hstays h
    obtain ⟨name, rest, hcomps, hname⟩ :=
      hstays _ ((validateDeletionPath_eq_ok_iff _ _ _).2 ⟨h, rfl⟩)
    rw [plainComponents_join h.relative, append_cancel_left_eq,
      nameComponents_of_notMem h.no_parent,
      List.map_inj_right fun _ _ => PathComponent.normal.inj] at hcomps
    exact ⟨name, rest, hcomps, hname⟩
  · intro hnames q hq
    obtain ⟨h, rfl⟩ := (validateDeletionPath_eq_ok_iff _ _ _).1 hq
    obtain ⟨name, rest, heq, hname⟩ := hnames h
    refine ⟨name, rest, ?_, hname⟩
    rw [plainComponents_join h.relative, nameComponents_of_notMem h.no_parent, heq]

section FirstPiece

variable {tail : List (List Char)}

theorem pathNames_dot (h : clean.splitOn '/' = ['.'] :: tail) :
    pathNames (clean.splitOn '/') = pathNames tail := by
  rw [h]
  rfl

theorem passes_of_dot (h : clean.splitOn '/' = ['.'] :: tail) (htail : tail ≠ [])
    (hdots : ['.', '.'] ∉ pathNames tail) : Passes clean := by
  obtain ⟨more, rfl⟩ : ∃ more, clean = '.' :: '/' :: more := by
    rcases eq_of_splitOn h with ⟨hnil, -⟩ | ⟨-, hmore⟩
    · exact absurd hnil htail
    · exact hmore
  refine ⟨by simp, by simp, by simp, by simp [protectedDirs], ?_⟩
  rwa [pathNames_dot h]

theorem Passes.exists_name {first : List Char} (h : Passes clean)
    (hsplit : clean.splitOn '/' = first :: tail) (hdot : first ≠ ['.']) :
    ∃ name rest, pathNames (clean.splitOn '/') = name :: rest ∧ name ∉ protectedDirs := by
  have hfirst := eq_of_splitOn hsplit
  have hne : first ≠ [] := by
    rintro rfl
    rcases hfirst with ⟨-, heq⟩ | ⟨-, more, heq⟩
    · exact h.nonempty heq
    · exact h.relative (by simp [heq])
  have hpre : first <+: clean := by
    rcases hfirst with ⟨-, heq⟩ | ⟨-, more, heq⟩ <;> simp [heq]
  refine ⟨first, pathNames tail, ?_, fun hmem => h.unprotected first hmem hpre⟩
  rw [hsplit]
  simp [pathNames, hne, hdot]

end FirstPiece

/-- **A deletion stays below the root and outside the protected directories**, unless a dot at the
start of its path hides where it goes. -/
theorem staysBelow_iff_not_dotted (relPath : String) (dstRoot : List Char) :
    StaysBelow relPath dstRoot ↔ ¬ Dotted relPath := by
  rw [staysBelow_iff_names]
  constructor
  · rintro hstays ⟨tail, hsplit, htail, hdots, hprotected⟩
    obtain ⟨name, rest, hnames, hname⟩ := hstays (passes_of_dot hsplit htail hdots)
    rw [pathNames_dot hsplit] at hnames
    exact hname (hprotected name (by rw [hnames]; rfl))
  · intro hdotted h
    obtain ⟨first, tail, hsplit⟩ :=
      exists_cons_of_ne_nil (splitOn_ne_nil '/' (cleanPath relPath))
    by_cases hdot : first = ['.']
    · subst hdot
      have htail : tail ≠ [] := fun htail =>
        h.not_dot ((eq_of_splitOn hsplit).resolve_right fun hmore => hmore.1 htail).2
      have hparent := h.no_parent
      rw [pathNames_dot hsplit] at hparent ⊢
      by_contra hno
      refine hdotted ⟨tail, hsplit, htail, hparent, fun name hname => ?_⟩
      by_contra hout
      obtain ⟨rest, hrest⟩ := List.head?_eq_some_iff.1 hname
      exact hno ⟨name, rest, hrest, hout⟩
    · exact h.exists_name hsplit hdot

/-- A dot in front of the name of a protected directory. -/
theorem not_staysBelow_dotGit : ¬ StaysBelow "./.git/config" "dst".toList := by
  intro h
  obtain ⟨name, rest, hcomps, hname⟩ := h "dst/./.git/config".toList (by decide)
  obtain rfl : ".git".toList = name :=
    PathComponent.normal.inj (List.cons.inj (List.cons.inj hcomps).2).1
  exact hname (by decide)

end Velcrux.Sync
