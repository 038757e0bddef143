/-
# `OpenViking.Lock.Types` — the data of the path-lock subsystem

`lock/types.rs`, and the request normalisation of `lock/manager.rs`.  Paths,
lock-file paths and ids are Rust strings, here lists of characters; message
texts are kept as the source formats them.
-/
import OpenViking.Lib.Text
import Mathlib.Data.List.Sort

namespace OpenViking.Lock

open OpenViking.Lib

/-- `Exact` covers one path, `Tree` a path and everything below it. -/
inductive PathLockKind
  | exact
  | tree
  deriving DecidableEq, Repr

/-- The content of a lock file. -/
structure LockToken where
  ownerId : Str
  timeNs : Nat
  lockType : PathLockKind
  deriving DecidableEq, Repr

/-- One path to lock. -/
structure PathLockRequest where
  path : Str
  kind : PathLockKind
  deriving DecidableEq, Repr

inductive PathLockError
  | conflict (lockPath owner : Str) (kind : PathLockKind)
  | timeout (elapsedMs : Nat)
  | busy (lockPath : Str) (operation : String)
  | io (message : String)
  | invalidToken (message : String)
  | emptyToken (lockPath : Str)
  | invalidRequest (message : String)
  | handoffFailed (message : String)
  | internal (message : String)
  deriving DecidableEq, Repr

/-- The `#[error(..)]` texts. -/
def PathLockError.display : PathLockError → String
  | .conflict lockPath owner _ => s!"lock conflict on '{text lockPath}': owned by '{text owner}'"
  | .timeout elapsedMs => s!"lock acquire timed out after {elapsedMs}ms"
  | .busy lockPath operation => s!"lock busy at '{text lockPath}' during {operation}"
  | .io message => s!"lock I/O error: {message}"
  | .invalidToken message => s!"invalid lock token: {message}"
  | .emptyToken lockPath => s!"empty lock token at '{text lockPath}'"
  | .invalidRequest message => s!"invalid lock request: {message}"
  | .handoffFailed message => s!"handoff/adopt failed: {message}"
  | .internal message => s!"lock internal error: {message}"

/-! ## Paths -/

/-- Trailing slashes dropped; the root stays `/`. -/
def normalizePath (path : Str) : Str :=
  if trimEnd '/' path = [] then ['/'] else trimEnd '/' path

/-! ## Normalising a batch

`normalize_requests` collects the requests in a map by normalised path, `Tree`
winning over `Exact`, and sorts the result by `(len, path)`.  The keys are
distinct, so the order in which the map is read does not matter. -/

/-- Enter one request into the map. -/
def mergeRequest (acc : List PathLockRequest) (request : PathLockRequest) : List PathLockRequest :=
  if normalizePath request.path ∈ acc.map (·.path) then
    acc.map fun r =>
      if r.path = normalizePath request.path ∧ request.kind = .tree then { r with kind := .tree }
      else r
  else acc ++ [{ path := normalizePath request.path, kind := request.kind }]

/-- `String::len`, in bytes. -/
def byteLen (s : Str) : Nat := (s.map Char.utf8Size).sum

/-- The sort key order `(len, path)`. -/
def requestLe (a b : PathLockRequest) : Prop :=
  byteLen a.path < byteLen b.path ∨ (byteLen a.path = byteLen b.path ∧ a.path ≤ b.path)

instance : DecidableRel requestLe := fun _ _ =>
  inferInstanceAs (Decidable (_ ∨ (_ ∧ _)))

def normalizeRequests (requests : List PathLockRequest) : List PathLockRequest :=
  (requests.foldl mergeRequest []).insertionSort requestLe

/-- A path as `normalize_requests` produces it: not empty, no trailing slash
except for the root itself. -/
def Normal (path : Str) : Prop := path = ['/'] ∨ (path ≠ [] ∧ path.getLast? ≠ some '/')

/-! ## Which requests exclude each other -/

/-- The string every path below `root` starts with. -/
def dirPrefix (root : Str) : Str :=
  if root.getLast? = some '/' then root else root ++ ['/']

end OpenViking.Lock
