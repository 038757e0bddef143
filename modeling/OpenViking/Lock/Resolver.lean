/-
# `OpenViking.Lock.Resolver` — which lock file stands for which path

`lock/resolver.rs`.  A directory is locked through the marker
`{path}/.path.ovlock`, a file or a missing path through the sidecar
`{parent}/.exact.ovlock.<name>.<hash>`.  A marker is never a sidecar
(`pathLockPath_ne_sidecar`), and an exact lock looks at both lock files of its
path and at no other (`mem_conflictPaths`, `conflictPaths_cases`).
-/
import OpenViking.Lock.Types

namespace OpenViking.Lock

open OpenViking.Lib

/-- `PATH_LOCK_FILE` -/
def pathLockFile : Str := ['.', 'p', 'a', 't', 'h', '.', 'o', 'v', 'l', 'o', 'c', 'k']

/-- `EXACT_LOCK_FILE_PREFIX` -/
def exactLockFilePrefix : Str :=
  ['.', 'e', 'x', 'a', 'c', 't', '.', 'o', 'v', 'l', 'o', 'c', 'k', '.']

/-- The digits `{:02x}` prints. -/
def hexDigits : Str :=
  ['0', '1', '2', '3', '4', '5', '6', '7', '8', '9', 'a', 'b', 'c', 'd', 'e', 'f']

/-- `hash_prefix`, sixteen digits of the SHA-1 digest of a path.  SHA-1 is not
part of the repository; what the lock files rely on is that the digest is
written in hex. -/
structure SidecarHash where
  hashPrefix : Str → Str
  hex : ∀ path, ∀ c ∈ hashPrefix path, c ∈ hexDigits

/-- `{path}/.path.ovlock` -/
def pathLockPath (path : Str) : Str := trimEnd '/' path ++ '/' :: pathLockFile

/-- `(parent_dir, basename)` -/
def splitParentName (path : Str) : Str × Str :=
  match rsplitOnce '/' (trimEnd '/' path) with
  | some (parent, name) => if parent ≠ [] then (parent, name) else (['/'], name)
  | none => (['/'], trimEnd '/' path)

/-- Characters a sidecar name keeps. -/
def keepsChar (c : Char) : Bool := c.isAlphanum || c == '.' || c == '_' || c == '-'

/-- Every run of other characters becomes one `_`. -/
def sanitize : Bool → Str → Str
  | _, [] => []
  | replacing, c :: cs =>
      if keepsChar c then c :: sanitize false cs
      else if replacing then sanitize true cs
      else '_' :: sanitize true cs

/-- `safe_name` -/
def safeName (name : Str) : Str :=
  let edge : Char → Bool := fun c => c == '.' || c == '_'
  let trimmed := ((sanitize false name).dropWhile edge).rdropWhile edge
  (if trimmed = [] then ['p', 'a', 't', 'h'] else trimmed).take 80

/-- `{parent}/.exact.ovlock.<safe_name>.<hash>` -/
def prefixedExactLockPath (h : SidecarHash) (path : Str) : Str :=
  (splitParentName path).1 ++ '/' :: (exactLockFilePrefix ++
    (safeName (splitParentName path).2 ++ '.' :: h.hashPrefix path))

/-- What `stat` can say about an existing node. -/
inductive NodeKind
  | file
  | dir
  deriving DecidableEq, Repr

structure ResolvedExactPaths where
  acquireLockPath : Str
  conflictPaths : List Str
  deriving DecidableEq, Repr

/-- `resolve_exact_paths` after its one `stat`; `none` is any `stat` error. -/
def resolvedExactPaths (h : SidecarHash) (stat : Option NodeKind) (path : Str) :
    ResolvedExactPaths :=
  let acquire := match stat with
    | some .dir => pathLockPath path
    | _ => prefixedExactLockPath h path
  { acquireLockPath := acquire
    conflictPaths :=
      if acquire = pathLockPath path then [acquire, prefixedExactLockPath h path]
      else [acquire, pathLockPath path] }

/-- `resolve_tree_lock_path` after its `stat`. -/
def resolvedTreeLockPath (h : SidecarHash) (stat : Option NodeKind) (path : Str) : Str :=
  match stat with
  | some .file => prefixedExactLockPath h path
  | _ => pathLockPath path

/-- One step of the ancestor walk. -/
def walkParent (current : Str) : Option Str :=
  match rsplitOnce '/' current with
  | some (p, _) => if p ≠ [] then some p else if current ≠ ['/'] then some ['/'] else none
  | none => none

/-- The directories `check_ancestor_tree_locks` visits, nearest first.  Every
step shortens the path, so its length is enough fuel. -/
def ancestorsFrom : Nat → Str → List Str
  | 0, _ => []
  | n + 1, current =>
      match walkParent current with
      | some parent => parent :: ancestorsFrom n parent
      | none => []

def ancestorsOf (path : Str) : List Str := ancestorsFrom path.length path

/-- The marker the walk reads for a visited directory. -/
def ancestorLock (parent : Str) : Str :=
  if parent = ['/'] then '/' :: pathLockFile else parent ++ '/' :: pathLockFile

/-! ## Names without a slash -/

theorem slash_notMem_sanitize : ∀ (b : Bool) (s : Str), '/' ∉ sanitize b s
  | _, [] => by simp [sanitize]
  | b, c :: cs => by
      have ih₁ := slash_notMem_sanitize false cs
      have ih₂ := slash_notMem_sanitize true cs
      unfold sanitize
      split
      · next hc =>
          have hne : '/' ≠ c := by
            rintro rfl
            exact absurd hc (by decide)
          simp [hne, ih₁]
      · split
        · exact ih₂
        · simp [ih₂]

theorem slash_notMem_safeName (name : Str) : '/' ∉ safeName name := by
  intro h
  have h := List.mem_of_mem_take h
  split at h
  · exact absurd h (by decide)
  · have h := (List.rdropWhile_prefix _ _).subset h
    exact slash_notMem_sanitize false name ((List.dropWhile_suffix _).subset h)

theorem SidecarHash.notMem (h : SidecarHash) {c : Char} (hc : c ∉ hexDigits) (path : Str) :
    c ∉ h.hashPrefix path :=
  fun hm => hc (h.hex path c hm)

/-- The last component of a sidecar. -/
def sidecarName (h : SidecarHash) (path : Str) : Str :=
  exactLockFilePrefix ++ (safeName (splitParentName path).2 ++ '.' :: h.hashPrefix path)

theorem prefixedExactLockPath_eq (h : SidecarHash) (path : Str) :
    prefixedExactLockPath h path = (splitParentName path).1 ++ '/' :: sidecarName h path := rfl

theorem slash_notMem_sidecarName (h : SidecarHash) (path : Str) : '/' ∉ sidecarName h path := by
  intro hm
  rcases List.mem_append.mp hm with hm | hm
  · exact absurd hm (by decide)
  · rcases List.mem_append.mp hm with hm | hm
    · exact slash_notMem_safeName _ hm
    · rcases List.mem_cons.mp hm with hm | hm
      · exact absurd hm (by decide)
      · exact h.notMem (by decide) path hm

theorem slash_notMem_pathLockFile : '/' ∉ pathLockFile := by decide

/-! ## The two names are told apart -/

theorem pathLockPath_ne_sidecar (h : SidecarHash) (p q : Str) :
    pathLockPath p ≠ prefixedExactLockPath h q := by
  intro heq
  rw [prefixedExactLockPath_eq] at heq
  have := (append_cons_inj_of_notMem slash_notMem_pathLockFile
    (slash_notMem_sidecarName h q) heq).2
  simp [pathLockFile, sidecarName, exactLockFilePrefix] at this

/-- Both lock files of a path are looked at, whichever is used. -/
theorem mem_conflictPaths (hash : SidecarHash) (st : Option NodeKind) (path : Str) :
    pathLockPath path ∈ (resolvedExactPaths hash st path).conflictPaths ∧
      prefixedExactLockPath hash path ∈ (resolvedExactPaths hash st path).conflictPaths := by
  have hne := pathLockPath_ne_sidecar hash path path
  unfold resolvedExactPaths
  cases st with
  | none => simp [hne.symm]
  | some k =>
      cases k with
      | file => simp [hne.symm]
      | dir => simp

/-- And nothing else. -/
theorem conflictPaths_cases {hash : SidecarHash} {st : Option NodeKind} {path X : Str}
    (h : X ∈ (resolvedExactPaths hash st path).conflictPaths) :
    X = pathLockPath path ∨ X = prefixedExactLockPath hash path := by
  have hne := pathLockPath_ne_sidecar hash path path
  have hsidecar : X ∈ [prefixedExactLockPath hash path, pathLockPath path] →
      X = pathLockPath path ∨ X = prefixedExactLockPath hash path := by simp [or_comm]
  unfold resolvedExactPaths at h
  cases st with
  | none => exact hsidecar (by simpa [hne.symm] using h)
  | some k =>
      cases k with
      | file => exact hsidecar (by simpa [hne.symm] using h)
      | dir => simpa using h

end OpenViking.Lock
