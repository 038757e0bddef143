/-
# `OpenViking.Lock.Provider` — the token store behind the lock manager

`lock/provider.rs`: the calls the manager makes on a `PathLockProvider`, and
`MemoryPathLockProvider`, which answers them from a map.  The manager also
asks the filesystem (`stat`, `mkdir`) and the clock; these are calls of the
same kind, so that every place where the code leaves the manager is one call.
-/
import OpenViking.Lib.Program
import OpenViking.Lock.Resolver
import Mathlib.Data.List.AList

namespace OpenViking.Lock

open OpenViking.Lib

/-! ## The calls -/

/-- Everything the manager awaits. -/
inductive Op
  | readToken (lockPath : Str)
  | tryCreateToken (lockPath : Str) (token : LockToken)
  | compareAndWriteToken (lockPath : Str) (expected replacement : LockToken)
  | removeToken (lockPath ownerId : Str) (force : Bool)
  | scanDescendantLocks (root : Str)
  | stat (path : Str)
  | mkdir (path : Str)
  | nowNs
  deriving DecidableEq, Repr

/-- What each call answers.  A failed `stat` is `none`, since the code never
looks at the reason; a failed `mkdir` is the text of its error. -/
@[reducible] def Res : Op → Type
  | .readToken _ => Except PathLockError (Option LockToken)
  | .tryCreateToken _ _ => Except PathLockError Unit
  | .compareAndWriteToken _ _ _ => Except PathLockError Bool
  | .removeToken _ _ _ => Except PathLockError Bool
  | .scanDescendantLocks _ => Except PathLockError (List Str)
  | .stat _ => Option NodeKind
  | .mkdir _ => Except String Unit
  | .nowNs => Nat

/-- The parts of a manager that do not change. -/
structure Config where
  hash : SidecarHash
  /-- `(lock_expire_secs * 1e9) as u128` -/
  expireNs : Nat

abbrev TokenMap : Type := AList (fun _ : Str => LockToken)

namespace MemoryProvider

/-- `HashMap::get(lock_path).cloned()` -/
def readToken (tokens : TokenMap) (lockPath : Str) : Option LockToken := tokens.lookup lockPath

def tryCreateToken (tokens : TokenMap) (lockPath : Str) (token : LockToken) :
    Except PathLockError Unit × TokenMap :=
  match tokens.lookup lockPath with
  | some existing => (.error (.conflict lockPath existing.ownerId existing.lockType), tokens)
  | none => (.ok (), tokens.insert lockPath token)

def compareAndWriteToken (tokens : TokenMap) (lockPath : Str) (expected replacement : LockToken) :
    Bool × TokenMap :=
  if tokens.lookup lockPath = some expected then (true, tokens.insert lockPath replacement)
  else (false, tokens)

/-- `force` is ignored here. -/
def removeToken (tokens : TokenMap) (lockPath ownerId : Str) : Bool × TokenMap :=
  match tokens.lookup lockPath with
  | some token => if token.ownerId = ownerId then (true, tokens.erase lockPath) else (false, tokens)
  | none => (false, tokens)

def scanDescendantLocks (tokens : TokenMap) (root : Str) : List Str :=
  tokens.keys.filter ((dirPrefix root).isPrefixOf ·)

end MemoryProvider

end OpenViking.Lock
