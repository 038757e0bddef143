/-
# `OpenViking.Lock.Manager` — the lock manager's operations as programs

`PathLockManager` of `lock/manager.rs`, each operation as it runs while the
owner's mutex is held.  A program stops at every call of `Op`.

One attempt of `acquire_batch` is here, `tryAcquireBatchOnce`.  Not here: the
waiting loop around it, its timeouts, the stale-token cleanup between two
attempts, the registry of leases that a granted batch is entered into, and the
metrics.
-/
import OpenViking.Lock.Provider

namespace OpenViking.Lock

open OpenViking.Lib OpenViking.Lib.Program

abbrev LockTask (α : Type) : Type := Program Op Res α

/-- A fallible one: `PathLockResult`. -/
abbrev LockM (α : Type) : Type := ExceptT PathLockError (Program Op Res) α

/-! ## The calls, as programs -/

def readToken (lockPath : Str) : LockM (Option LockToken) :=
  ExceptT.mk (perform (Op.readToken lockPath))

def tryCreateToken (lockPath : Str) (token : LockToken) : LockM Unit :=
  ExceptT.mk (perform (Op.tryCreateToken lockPath token))

def compareAndWriteToken (lockPath : Str) (expected replacement : LockToken) : LockM Bool :=
  ExceptT.mk (perform (Op.compareAndWriteToken lockPath expected replacement))

def removeToken (lockPath ownerId : Str) (force : Bool) : LockM Bool :=
  ExceptT.mk (perform (Op.removeToken lockPath ownerId force))

def scanDescendantLocks (root : Str) : LockM (List Str) :=
  ExceptT.mk (perform (Op.scanDescendantLocks root))

def stat (path : Str) : LockM (Option NodeKind) := ExceptT.lift (perform (Op.stat path))

def mkdir (path : Str) : LockM (Except String Unit) := ExceptT.lift (perform (Op.mkdir path))

def nowNs : LockM Nat := ExceptT.lift (perform Op.nowNs)

/-- The calls on a `PathLockProvider` that concern one token, and the clock:
what `try_acquire_one` and the stale-token cleanup need, in any monad. -/
structure TokenCalls (M : Type → Type) where
  readToken : Str → ExceptT PathLockError M (Option LockToken)
  tryCreateToken : Str → LockToken → ExceptT PathLockError M Unit
  compareAndWriteToken : Str → LockToken → LockToken → ExceptT PathLockError M Bool
  removeToken : Str → Str → Bool → ExceptT PathLockError M Bool
  nowNs : ExceptT PathLockError M Nat

/-- The provider the manager talks to. -/
def providerCalls : TokenCalls (Program Op Res) :=
  { readToken, tryCreateToken, compareAndWriteToken, removeToken, nowNs }

section

variable (cfg : Config)

/-! ## Acquiring -/

/-- `now_ns.saturating_sub(token.time_ns) > expire_ns` -/
def isStale (token : LockToken) (now : Nat) : Bool := cfg.expireNs < now - token.timeNs

/-- A live token of somebody else. -/
def blocks (owner : Str) (now : Nat) (token : LockToken) : Bool :=
  token.ownerId != owner && !isStale cfg token now

def checkLockPathsFrom (owner : Str) (now : Nat) : List Str → LockM Unit
  | [] => pure ()
  | lockPath :: rest => do
      match ← readToken lockPath with
      | some token =>
          if blocks cfg owner now token then
            throw (.conflict lockPath token.ownerId token.lockType)
          else checkLockPathsFrom owner now rest
      | none => checkLockPathsFrom owner now rest

def checkLockPaths (lockPaths : List Str) (owner : Str) : LockM Unit := do
  let now ← nowNs
  checkLockPathsFrom cfg owner now lockPaths

/-- Only `Tree` tokens propagate to descendants. -/
def checkAncestorsFrom (owner : Str) (now : Nat) : List Str → LockM Unit
  | [] => pure ()
  | parent :: rest => do
      match ← readToken (ancestorLock parent) with
      | some token =>
          if token.lockType = .tree ∧ blocks cfg owner now token then
            throw (.conflict (ancestorLock parent) token.ownerId token.lockType)
          else checkAncestorsFrom owner now rest
      | none => checkAncestorsFrom owner now rest

def checkAncestorTreeLocks (path owner : Str) : LockM Unit := do
  let now ← nowNs
  checkAncestorsFrom cfg owner now (ancestorsOf path)

def checkDescendantLocks (path owner : Str) : LockM Unit := do
  let descendants ← scanDescendantLocks path
  let now ← nowNs
  checkLockPathsFrom cfg owner now descendants

def resolveExactPaths (path : Str) : LockM ResolvedExactPaths := do
  let st ← stat path
  return resolvedExactPaths cfg.hash st path

def resolveExactConflictPaths (path : Str) : LockM (List Str) := do
  let resolved ← resolveExactPaths cfg path
  return resolved.conflictPaths

def resolveTreeLockPath (path : Str) : LockM Str := do
  let st ← stat path
  return resolvedTreeLockPath cfg.hash st path

/-- The walk up of `ensure_lock_dir`: the directories to create, topmost
first. -/
def missingDirs : Nat → Str → List Str → LockM (List Str)
  | 0, _, missing => return missing
  | n + 1, current, missing => do
      match ← stat current with
      | some .dir => return missing
      | _ =>
          match rsplitOnce '/' current with
          | some (p, _) =>
              if p ≠ [] then missingDirs n p (current :: missing)
              else return current :: missing
          | none => return current :: missing

def createDirs : List Str → LockM Unit
  | [] => pure ()
  | dir :: rest => do
      match ← mkdir dir with
      | .ok () => createDirs rest
      | .error mkdirError =>
          match ← stat dir with
          | some .dir => createDirs rest
          | _ => throw (.io s!"failed to create lock dir '{text dir}': {mkdirError}")

def ensureLockDir (lockPath : Str) : LockM Unit := do
  match rsplitOnce '/' lockPath with
  | some (parent, _) =>
      if parent = [] ∨ parent = ['/'] then pure ()
      else do
        let missing ← missingDirs (parent.length + 1) parent []
        createDirs missing
  | none => pure ()

/-- `.map_err(|error| Io(format!("failed to create lock dir: {error}")))` -/
def ensureLockDirOr (lockPath : Str) : LockM Unit :=
  ExceptT.mk do
    match ← (ensureLockDir lockPath).run with
    | .ok () => pure (.ok ())
    | .error e => pure (.error (.io s!"failed to create lock dir: {e.display}"))

/-- What an acquisition did to a lock file. -/
inductive AcquisitionChange
  | created
  | reentrant
  | upgraded (previous replacement : LockToken)
  deriving DecidableEq, Repr

def tryAcquireOneWith {M : Type → Type} [Monad M] (calls : TokenCalls M) (lockPath owner : Str)
    (kind : PathLockKind) : ExceptT PathLockError M AcquisitionChange := do
  let now ← calls.nowNs
  let token : LockToken := { ownerId := owner, timeNs := now, lockType := kind }
  match ← calls.readToken lockPath with
  | some existing =>
      if existing.ownerId = owner then
        if existing.lockType = .exact ∧ kind = .tree then
          if ← calls.compareAndWriteToken lockPath existing token then
            return .upgraded existing token
          else throw (.conflict lockPath owner existing.lockType)
        else return .reentrant
      else if isStale cfg existing now then
        let _ ← calls.removeToken lockPath existing.ownerId true
        calls.tryCreateToken lockPath token
        return .created
      else throw (.conflict lockPath existing.ownerId existing.lockType)
  | none =>
      calls.tryCreateToken lockPath token
      return .created

def tryAcquireOne (lockPath owner : Str) (kind : PathLockKind) : LockM AcquisitionChange :=
  tryAcquireOneWith cfg providerCalls lockPath owner kind

abbrev Acquired : Type := List (Str × AcquisitionChange)

/-- The body of the acquisition loop; an exact request also returns its
resolution, for the verification pass. -/
def acquireRequest (owner : Str) (request : PathLockRequest) :
    LockM (Str × AcquisitionChange × Option ResolvedExactPaths) := do
  match request.kind with
  | .exact =>
      checkAncestorTreeLocks cfg request.path owner
      let resolved ← resolveExactPaths cfg request.path
      checkLockPaths cfg resolved.conflictPaths owner
      ensureLockDirOr resolved.acquireLockPath
      let change ← tryAcquireOne cfg resolved.acquireLockPath owner .exact
      return (resolved.acquireLockPath, change, some resolved)
  | .tree =>
      let lockPath ← resolveTreeLockPath cfg request.path
      checkAncestorTreeLocks cfg request.path owner
      let candidates ← resolveExactConflictPaths cfg request.path
      checkLockPaths cfg candidates owner
      checkDescendantLocks cfg request.path owner
      ensureLockDirOr lockPath
      let change ← tryAcquireOne cfg lockPath owner .tree
      return (lockPath, change, none)

/-- The exact resolutions of the first pass, by path. -/
abbrev Resolutions : Type := AList (fun _ : Str => ResolvedExactPaths)

def Resolutions.add (res : Resolutions) (path : Str) : Option ResolvedExactPaths → Resolutions
  | some resolved => res.insert path resolved
  | none => res

/-- The acquisition loop.  What was acquired before an error is part of the
result: it has to be rolled back. -/
def acquireRequests (owner : Str) :
    List PathLockRequest → Acquired → Resolutions →
      LockTask (Except PathLockError Unit × Acquired × Resolutions)
  | [], acquired, res => pure (.ok (), acquired, res)
  | request :: rest, acquired, res => do
      match ← (acquireRequest cfg owner request).run with
      | .ok (lockPath, change, resolved) =>
          acquireRequests owner rest (acquired ++ [(lockPath, change)])
            (res.add request.path resolved)
      | .error e => pure (.error e, acquired, res)

/-- The verification pass over one request. -/
def verifyRequest (owner : Str) (res : Resolutions) (request : PathLockRequest) : LockM Unit := do
  match request.kind with
  | .exact =>
      checkAncestorTreeLocks cfg request.path owner
      match res.lookup request.path with
      | some resolved => checkLockPaths cfg resolved.conflictPaths owner
      | none => throw (.io s!"missing cached exact resolution for '{text request.path}'")
  | .tree =>
      checkAncestorTreeLocks cfg request.path owner
      let candidates ← resolveExactConflictPaths cfg request.path
      checkLockPaths cfg candidates owner
      checkDescendantLocks cfg request.path owner

def verifyRequests (owner : Str) (res : Resolutions) : List PathLockRequest → LockM Unit
  | [] => pure ()
  | request :: rest => do
      verifyRequest cfg owner res request
      verifyRequests owner res rest

end

/-! ## Giving back -/

/-- `format!("{error}; rollback failed: {rollback_error}")` -/
def rollbackError (error rollbackError : PathLockError) : PathLockError :=
  .internal s!"{error.display}; rollback failed: {rollbackError.display}"

def releaseChangedError (lockPath : Str) : PathLockError :=
  .io s!"lock path '{text lockPath}' changed while releasing"

/-- Remove an owned token; a missing one is fine, a foreign one is `false`. -/
def removeOwnedToken (lockPath owner : Str) : LockM Bool := do
  if ← removeToken lockPath owner false then return true
  else
    match ← readToken lockPath with
    | none => return true
    | some token =>
        if token.ownerId ≠ owner then return false
        else throw (releaseChangedError lockPath)

/-- Undo one recorded change. -/
def rollbackOne (owner lockPath : Str) : AcquisitionChange → LockM Unit
  | .created => do
      let _ ← removeOwnedToken lockPath owner
      return ()
  | .reentrant => pure ()
  | .upgraded previous replacement => do
      if ← compareAndWriteToken lockPath replacement previous then return ()
      else throw (.io s!"failed to roll back token upgrade at '{text lockPath}'")

/-- Undo the changes in the given order, going on after an error and
reporting the first one. -/
def rollbackEach (owner : Str) : Acquired → Option PathLockError → LockTask (Option PathLockError)
  | [], first => pure first
  | (lockPath, change) :: rest, first => do
      match ← (rollbackOne owner lockPath change).run with
      | .ok () => rollbackEach owner rest first
      | .error e => rollbackEach owner rest (first.or (some e))

def rollbackAcquisitions (acquired : Acquired) (owner : Str) : LockM Unit :=
  ExceptT.mk do
    match ← rollbackEach owner acquired.reverse none with
    | some e => pure (.error e)
    | none => pure (.ok ())

/-- Roll back after `error`; the flag of the result says whether the error
came before any token could have been published. -/
def failWith (acquired : Acquired) (owner : Str) (error : PathLockError) (preConflict : Bool) :
    LockTask (PathLockError × Bool) := do
  match ← (rollbackAcquisitions acquired owner).run with
  | .ok () => pure (error, preConflict)
  | .error e => pure (rollbackError error e, false)

section

variable (cfg : Config)

def tryAcquireBatchOnce (requests : List PathLockRequest) (owner : Str) :
    LockTask (Except (PathLockError × Bool) Acquired) := do
  match ← acquireRequests cfg owner requests [] ∅ with
  | (.error e, acquired, _) => return .error (← failWith acquired owner e true)
  | (.ok (), acquired, res) =>
      match ← (verifyRequests cfg owner res requests).run with
      | .error e => return .error (← failWith acquired owner e false)
      | .ok () => return .ok acquired

end

end OpenViking.Lock

/-! ## Programs that leave every token alone

The checks and resolutions of the manager only read: tokens, the filesystem
and the clock.  `ensure_lock_dir` also makes directories.  Whatever a family
of calls keeps, as long as it contains the reading ones, these programs keep
it too (`Program.Only`). -/

namespace OpenViking.Lock

open OpenViking.Lib OpenViking.Lib.Program

/-- The calls that change no token. -/
def Op.Reads : Op → Prop
  | .readToken _ | .scanDescendantLocks _ | .stat _ | .mkdir _ | .nowNs => True
  | _ => False

section

variable {cfg : Config} {P : Op → Prop} (hP : ∀ op, op.Reads → P op)

include hP

theorem readToken_only (X : Str) : (readToken X).run.Only P := .perform (hP _ trivial)

theorem nowNs_only : nowNs.run.Only P := .lift (.perform (hP _ trivial))

theorem stat_only (path : Str) : (stat path).run.Only P := .lift (.perform (hP _ trivial))

theorem checkLockPathsFrom_only (owner : Str) (now : Nat) (ps : List Str) :
    (checkLockPathsFrom cfg owner now ps).run.Only P := by
  induction ps with
  | nil => exact .pureE _
  | cons X ps ih =>
      refine .bindE (readToken_only hP X) fun t => ?_
      cases t with
      | none => exact ih
      | some token =>
          dsimp only
          split
          · exact .throwE _
          · exact ih

theorem checkLockPaths_only (ps : List Str) (owner : Str) :
    (checkLockPaths cfg ps owner).run.Only P :=
  .bindE (nowNs_only hP) fun now => checkLockPathsFrom_only hP owner now ps

theorem checkAncestorsFrom_only (owner : Str) (now : Nat) (ps : List Str) :
    (checkAncestorsFrom cfg owner now ps).run.Only P := by
  induction ps with
  | nil => exact .pureE _
  | cons X ps ih =>
      refine .bindE (readToken_only hP _) fun t => ?_
      cases t with
      | none => exact ih
      | some token =>
          dsimp only
          split
          · exact .throwE _
          · exact ih

theorem checkAncestorTreeLocks_only (path owner : Str) :
    (checkAncestorTreeLocks cfg path owner).run.Only P :=
  .bindE (nowNs_only hP) fun now => checkAncestorsFrom_only hP owner now _

theorem checkDescendantLocks_only (path owner : Str) :
    (checkDescendantLocks cfg path owner).run.Only P :=
  .bindE (.perform (hP _ trivial)) fun ps => .bindE (nowNs_only hP) fun now =>
    checkLockPathsFrom_only hP owner now ps

theorem resolveExactPaths_only (path : Str) : (resolveExactPaths cfg path).run.Only P :=
  .bindE (stat_only hP path) fun _ => .pureE _

theorem resolveExactConflictPaths_only (path : Str) :
    (resolveExactConflictPaths cfg path).run.Only P :=
  .bindE (resolveExactPaths_only hP path) fun _ => .pureE _

theorem resolveTreeLockPath_only (path : Str) : (resolveTreeLockPath cfg path).run.Only P :=
  .bindE (stat_only hP path) fun _ => .pureE _

theorem missingDirs_only (n : Nat) (current : Str) (missing : List Str) :
    (missingDirs n current missing).run.Only P := by
  induction n generalizing current missing with
  | zero => exact .pureE _
  | succ n ih =>
      refine .bindE (stat_only hP current) fun st => ?_
      split
      · exact .pureE _
      · split
        · split
          · exact ih _ _
          · exact .pureE _
        · exact .pureE _

theorem createDirs_only (dirs : List Str) : (createDirs dirs).run.Only P := by
  induction dirs with
  | nil => exact .pureE _
  | cons dir rest ih =>
      refine .bindE (.lift (.perform (hP _ trivial))) fun r => ?_
      cases r with
      | ok u => exact ih
      | error e =>
          refine .bindE (stat_only hP dir) fun st => ?_
          split
          · exact ih
          · exact .throwE _

theorem ensureLockDir_only (X : Str) : (ensureLockDir X).run.Only P := by
  unfold ensureLockDir
  split
  · split
    · exact .pureE _
    · exact .bindE (missingDirs_only hP _ _ _) fun _ => createDirs_only hP _
  · exact .pureE _

theorem ensureLockDirOr_only (X : Str) : (ensureLockDirOr X).run.Only P := by
  refine .bind (ensureLockDir_only hP X) fun r => ?_
  cases r with
  | ok u => exact .pure _
  | error e => exact .pure _

theorem verifyRequest_only (owner : Str) (res : Resolutions) (request : PathLockRequest) :
    (verifyRequest cfg owner res request).run.Only P := by
  unfold verifyRequest
  split
  · refine .bindE (checkAncestorTreeLocks_only hP _ _) fun _ => ?_
    split
    · exact checkLockPaths_only hP _ _
    · exact .throwE _
  · exact .bindE (checkAncestorTreeLocks_only hP _ _) fun _ =>
      .bindE (resolveExactConflictPaths_only hP _) fun _ =>
        .bindE (checkLockPaths_only hP _ _) fun _ => checkDescendantLocks_only hP _ _

theorem verifyRequests_only (owner : Str) (res : Resolutions) (requests : List PathLockRequest) :
    (verifyRequests cfg owner res requests).run.Only P := by
  induction requests with
  | nil => exact .pureE _
  | cons request rest ih => exact .bindE (verifyRequest_only hP _ _ _) fun _ => ih

end

/-- The tokens of one owner, by lock path. -/
abbrev Tokens : Type := Str → Option LockToken

/-! ## A configuration to run

The first sixteen digits of SHA-1 of the paths that the runs below ask for. -/

def sampleHash : SidecarHash where
  hashPrefix path := (match text path with
    | "/a" => "2256c6ac80d3eb26"
    | "/a/" => "75cd27c7dbc8cdb9"
    | "/s" => "f9b05e880934c068"
    | "/z" => "b147fabc2d4f60fa"
    | _ => "").toList
  hex path := by
    have hall {s : Str} (h : s.all (fun c => decide (c ∈ hexDigits)) = true) :
        ∀ c ∈ s, c ∈ hexDigits := fun c hc => of_decide_eq_true (List.all_eq_true.mp h c hc)
    refine hall ?_
    split <;> decide

def sampleConfig : Config := ⟨sampleHash, 1000⟩

end OpenViking.Lock
