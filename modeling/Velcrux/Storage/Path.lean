import Velcrux.Util

/-!
# Virtual paths

`VPath` and its validator (`storage/mod`): the relative, forward-slash paths that reach the storage
backends. A string is worked on as its list of characters; lengths are counted in bytes of UTF-8.
-/

namespace Velcrux.Storage

def maxPathComponent : ℕ := 255

def maxPathTotal : ℕ := 4096

def maxPathDepth : ℕ := 128

inductive VPathError where
  | empty
  | forbiddenChar
  | componentTooLong (len limit : ℕ)
  | tooLong (len limit : ℕ)
  | absolute
  | traversal
  | escapesRoot
  | symlinkEscape
deriving DecidableEq

def VPathError.text : VPathError → String
  | .empty => "empty path"
  | .forbiddenChar => "forbidden character"
  | .componentTooLong len limit => s!"component too long ({len} > {limit})"
  | .tooLong len limit => s!"path too long ({len} > {limit})"
  | .absolute => "absolute path"
  | .traversal => "traversal"
  | .escapesRoot => "escapes root"
  | .symlinkEscape => "symlink escapes root"

structure VPath where
  str : String
deriving DecidableEq

def isControl (c : Char) : Bool := c.toNat < 0x20 || (0x7f ≤ c.toNat && c.toNat ≤ 0x9f)

def byteLen (cs : List Char) : ℕ := (cs.map Char.utf8Size).sum

def replaceDot (e : Char) : List Char → List Char
  | [] => []
  | c :: cs =>
    match cs with
    | '2' :: x :: rest =>
      if c = '%' ∧ x = e then '.' :: replaceDot e rest else c :: replaceDot e ('2' :: x :: rest)
    | cs => c :: replaceDot e cs

def reservedStems : List String :=
  ["CON", "PRN", "AUX", "NUL", "COM1", "COM2", "COM3", "COM4", "COM5", "COM6", "COM7", "COM8",
    "COM9", "LPT1", "LPT2", "LPT3", "LPT4", "LPT5", "LPT6", "LPT7", "LPT8", "LPT9"]

def hidesDots (component : List Char) : Bool :=
  let decoded := replaceDot 'E' (replaceDot 'e' component)
  decoded == ['.'] || decoded == ['.', '.'] || ['.', '.'].isPrefixOf decoded ||
    ['.', '.'].isSuffixOf decoded || decide (['/', '.', '.'] <:+: decoded) ||
    decide (['.', '.', '/'] <:+: decoded)

def checkComponent (component : List Char) : Except VPathError Unit :=
  if component = [] then .error .traversal
  else if component = ['.'] ∨ component = ['.', '.'] then .error .traversal
  else if hidesDots component then .error .traversal
  else if ['%', '2', 'f'] <:+: component.map Char.toLower then .error .traversal
  else if component.getLast? = some '.' ∨ component.getLast? = some ' ' then .error .traversal
  else if String.ofList ((component.map Char.toUpper).takeWhile (· ≠ '.')) ∈ reservedStems then
    .error .forbiddenChar
  else if maxPathComponent < byteLen component then
    .error (.componentTooLong (byteLen component) maxPathComponent)
  else .ok ()

def normalise (depth : ℕ) (normalised : List Char) :
    List (List Char) → Except VPathError (List Char)
  | [] => .ok normalised
  | component :: rest => do
    if maxPathDepth < depth + 1 then throw (.tooLong (depth + 1) maxPathDepth)
    checkComponent component
    -- no slash before the first component
    let slash := if depth = 0 then [] else ['/']
    normalise (depth + 1) (normalised ++ slash ++ component) rest

def VPath.validate (raw : String) : Except VPathError VPath :=
  if raw = "" then .error .empty
  else if maxPathTotal < raw.utf8ByteSize then .error (.tooLong raw.utf8ByteSize maxPathTotal)
  else if raw.toList.head? = some '/' then .error .absolute
  else if '\\' ∈ raw.toList ∨ ':' ∈ raw.toList then .error .traversal
  else if raw.toList.any isControl then .error .forbiddenChar
  else
    match normalise 0 [] (raw.toList.splitOn '/') with
    | .error e => .error e
    | .ok normalised =>
      if normalised = [] ∨ raw.toList.getLast? = some '/' then .error .traversal
      else .ok ⟨String.ofList normalised⟩

/-! ## Targets of symbolic links -/

def pushTarget : List (List Char) → List (List Char) → Except VPathError (List (List Char))
  | stack, [] => .ok stack
  | stack, component :: rest =>
    let component := trim component
    if component = [] ∨ component = ['.'] then pushTarget stack rest
    else if component = ['.', '.'] then
      -- one more step would leave the virtual root
      if stack = [] then .error .symlinkEscape else pushTarget stack.dropLast rest
    else if maxPathComponent < byteLen component then
      .error (.componentTooLong (byteLen component) maxPathComponent)
    else pushTarget (stack ++ [component]) rest

def VPath.validateSymlinkTarget (link : VPath) (rawTarget : String) : Except VPathError VPath :=
  let target := rawTarget.toList
  if target = [] then .error .empty
  else if target.any fun c => c.toNat < 0x20 || c.toNat == 0x7f then .error .forbiddenChar
  else if target.head? = some '/' ∨ target.head? = some '\\' then .error .symlinkEscape
  else if (target.head?.any fun c => c.utf8Size = 1) ∧ target[1]? = some ':' then
    .error .symlinkEscape
  else
    let parent := ((link.str.toList.splitOn '/').dropLast.map trim).filter fun c => c ≠ [] ∧ c ≠ ['.']
    match pushTarget parent (target.splitOnP fun c => c = '/' || c = '\\') with
    | .error e => .error e
    | .ok stack =>
      let resolved := ['/'].intercalate stack
      if maxPathTotal < byteLen resolved then .error (.tooLong (byteLen resolved) maxPathTotal)
      else .ok ⟨String.ofList resolved⟩

theorem normalise_ok {depth : ℕ} {normalised out : List Char} {components : List (List Char)}
    (h : normalise depth normalised components = .ok out) :
    out = normalised ++ (if depth = 0 ∨ components = [] then [] else ['/']) ++
      ['/'].intercalate components := by
  induction components generalizing depth normalised with
  | nil =>
    cases h
    simp
  | cons component rest ih =>
    rw [normalise] at h
    by_cases hdepth : maxPathDepth < depth + 1
    · rw [if_pos hdepth] at h
      cases h
    · rw [if_neg hdepth] at h
      cases hcheck : checkComponent component with
      | error e =>
        rw [hcheck] at h
        cases h
      | ok =>
        rw [hcheck] at h
        have hout := ih h
        rw [hout]
        cases rest <;> by_cases hd : depth = 0 <;> simp [hd, List.intercalate]

theorem validate_ok {raw : String} {p : VPath} (h : VPath.validate raw = .ok p) : p.str = raw := by
  unfold VPath.validate at h
  split_ifs at h
  cases hn : normalise 0 [] (raw.toList.splitOn '/') with
  | error e =>
    rw [hn] at h
    cases h
  | ok normalised =>
    rw [hn] at h
    dsimp only at h
    split_ifs at h
    cases h
    have hjoin := normalise_ok hn
    rw [if_pos (.inl rfl), List.nil_append, List.nil_append, List.intercalate_splitOn] at hjoin
    rw [hjoin, String.ofList_toList]

end Velcrux.Storage
