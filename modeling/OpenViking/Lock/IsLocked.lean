/-
# `OpenViking.Lock.IsLocked` — `is_locked` beside the checks of an acquisition

`is_locked` and an acquisition look for the same thing: a live token on one of
the two lock files of the path, or a live `Tree` token above it.  The lookup
is written twice.  An acquisition starts from the normalised path; `is_locked`
takes the path as it is given.

The marker `{path}/.path.ovlock` does not depend on trailing slashes, but the
sidecar does, through the hash of the path, and the walk upwards from a path
with trailing slashes visits the shorter spellings first.  The two lookups are
computed in full (`isLocked_spec`, `exactPreChecks_spec`) and compared.
-/
import OpenViking.Lock.AllOrNothing

namespace OpenViking.Lock

open OpenViking.Lib OpenViking.Lib.Program

/-! ## The lookup of `is_locked` -/

/-- `if let Ok(token) = read_token(..)`: a failed read counts as no token. -/
def readQuietly (lockPath : Str) : LockM (Option LockToken) :=
  ExceptT.lift do
    match ← (readToken lockPath).run with
    | .ok token => pure token
    | .error _ => pure none

/-- Some lock file of the list has a token with the property. -/
def anyRead (f : LockToken → Bool) : List Str → LockM Bool
  | [] => pure false
  | lockPath :: rest => do
      match ← readQuietly lockPath with
      | some token => if f token then pure true else anyRead f rest
      | none => anyRead f rest

section

variable (cfg : Config)

/-- `!ignore_stale || !is_stale(token)` -/
def counts (ignoreStale : Bool) (now : Nat) (token : LockToken) : Bool :=
  !ignoreStale || !isStale cfg token now

def isLocked (path : Str) (ignoreStale : Bool) : LockM Bool := do
  let now ← nowNs
  if ← anyRead (counts cfg ignoreStale now) [pathLockPath path] then return true
  else
    let exactPaths ← resolveExactConflictPaths cfg path
    if ← anyRead (counts cfg ignoreStale now) exactPaths then return true
    else
      -- only `Tree` locks propagate to descendants
      anyRead (fun token => token.lockType == .tree && counts cfg ignoreStale now token)
        ((ancestorsOf path).map ancestorLock)

/-- What an acquisition looks at before it makes the lock directory. -/
def exactPreChecks (path owner : Str) : LockM ResolvedExactPaths := do
  checkAncestorTreeLocks cfg path owner
  let resolved ← resolveExactPaths cfg path
  checkLockPaths cfg resolved.conflictPaths owner
  return resolved

/-- The checks over a batch, as long as nothing has been acquired. -/
def preChecks (owner : Str) : List PathLockRequest → LockM Unit
  | [] => pure ()
  | request :: rest => do
      let _ ← exactPreChecks cfg request.path owner
      preChecks owner rest

end

theorem normalizeRequests_singleton (path : Str) (kind : PathLockKind) :
    normalizeRequests [⟨path, kind⟩] = [⟨normalizePath path, kind⟩] := by
  simp [normalizeRequests, mergeRequest]

/-! ## A moment without failing calls -/

/-- One classification of the filesystem, one reading of the clock. -/
def moment (stat : Str → Option NodeKind) (now : Nat) : Circumstances :=
  ⟨fun _ => none, fun _ => now, fun _ => stat,
    fun _ path => .error s!"already exists: {text path}"⟩

/-- Some lock path of the list has a token with the property. -/
def seen (tokens : TokenMap) (f : LockToken → Bool) (Xs : List Str) : Bool :=
  Xs.any fun X => (tokens.lookup X).any f

theorem seen_cons (tokens : TokenMap) (f : LockToken → Bool) (X : Str) (Xs : List Str) :
    seen tokens f (X :: Xs) = ((tokens.lookup X).any f || seen tokens f Xs) := rfl

theorem seen_congr {tokens : TokenMap} {f g : LockToken → Bool} {Xs : List Str}
    (h : ∀ X t, tokens.lookup X = some t → f t = g t) : seen tokens f Xs = seen tokens g Xs := by
  unfold seen
  congr 1
  funext X
  cases hX : tokens.lookup X with
  | none => rfl
  | some t => exact h X t hX

theorem seen_iff {tokens : TokenMap} {f : LockToken → Bool} {Xs : List Str} :
    seen tokens f Xs = true ↔ ∃ X ∈ Xs, ∃ t, tokens.lookup X = some t ∧ f t = true := by
  simp only [seen, List.any_eq_true, Option.any_eq_true]

section

variable {cfg : Config} {stat : Str → Option NodeKind} {now : Nat}
  {tokens : TokenMap} {n : Nat}

theorem wp_readToken_moment {X : Str}
    {Q : Except PathLockError (Option LockToken) → Progress → Prop}
    (h : Q (.ok (tokens.lookup X)) ⟨n + 1, tokens⟩) :
    wpA (moment stat now) (readToken X).run Q ⟨n, tokens⟩ :=
  wp_perform h

theorem wp_nowNs_moment {Q : Except PathLockError Nat → Progress → Prop}
    (h : Q (.ok now) ⟨n + 1, tokens⟩) : wpA (moment stat now) nowNs.run Q ⟨n, tokens⟩ :=
  wp_bind (wp_perform (wp_pure h))

theorem wp_resolve_moment {path : Str}
    {Q : Except PathLockError ResolvedExactPaths → Progress → Prop}
    (h : Q (.ok (resolvedExactPaths cfg.hash (stat path) path)) ⟨n + 1, tokens⟩) :
    wpA (moment stat now) (resolveExactPaths cfg path).run Q ⟨n, tokens⟩ :=
  wp_bindE (wp_bind (wp_perform (wp_pure (wp_pureE h))))

theorem anyRead_spec (f : LockToken → Bool) (Xs : List Str) :
    wpA (moment stat now) (anyRead f Xs).run (fun r q => q.tokens = tokens ∧
      r = .ok (seen tokens f Xs)) ⟨n, tokens⟩ := by
  induction Xs generalizing n with
  | nil => exact wp_pureE ⟨rfl, rfl⟩
  | cons X rest ih =>
      refine wp_bindE (wp_bind (wp_bind (wp_readToken_moment (wp_pure (wp_pure ?_)))))
      rw [seen_cons]
      cases hX : tokens.lookup X with
      | none => exact ih
      | some token =>
          dsimp only
          split
          · next hf => exact wp_pureE ⟨rfl, by simp [hf]⟩
          · next hf =>
              simp only [Option.any_some, hf, Bool.false_or]
              exact ih

/-- Both lock files of a path are looked at, in whichever order. -/
theorem seen_conflictPaths (hash : SidecarHash) (st : Option NodeKind) (f : LockToken → Bool)
    (path : Str) :
    seen tokens f (resolvedExactPaths hash st path).conflictPaths =
      seen tokens f [pathLockPath path, prefixedExactLockPath hash path] := by
  obtain ⟨hmarker, hsidecar⟩ := mem_conflictPaths hash st path
  rw [Bool.eq_iff_iff, seen_iff, seen_iff]
  constructor
  · rintro ⟨X, hX, h⟩
    exact ⟨X, by simpa using conflictPaths_cases hX, h⟩
  · rintro ⟨X, hX, h⟩
    rcases List.mem_pair.mp hX with rfl | rfl
    · exact ⟨_, hmarker, h⟩
    · exact ⟨_, hsidecar, h⟩

/-! ## What the two lookups answer -/

/-- A live token on a lock file of the path, or a live `Tree` token above. -/
def taken (cfg : Config) (tokens : TokenMap) (now : Nat) (path : Str) : Bool :=
  seen tokens (fun t => !isStale cfg t now)
      [pathLockPath path, prefixedExactLockPath cfg.hash path] ||
    seen tokens (fun t => t.lockType == .tree && !isStale cfg t now)
      ((ancestorsOf path).map ancestorLock)

theorem isLocked_spec (path : Str) :
    wpA (moment stat now) (isLocked cfg path true).run
      (fun r _ => r = .ok (taken cfg tokens now path)) ⟨n, tokens⟩ := by
  have hcounts : counts cfg true now = fun t => !isStale cfg t now := by
    funext t
    simp [counts]
  refine wp_bindE (wp_nowNs_moment ?_)
  dsimp only
  rw [hcounts]
  refine wp_bindE (wp_mono (anyRead_spec _ _) ?_)
  rintro r ⟨n', ts⟩ ⟨rfl, rfl⟩
  dsimp only
  cases hmarker : seen ts (fun t => !isStale cfg t now) [pathLockPath path] with
  | true =>
      refine wp_pureE ?_
      have hmarker' : (ts.lookup (pathLockPath path)).any (fun t => !isStale cfg t now) = true := by
        simpa [seen] using hmarker
      simp [taken, seen_cons, hmarker']
  | false =>
      refine wp_bindE (wp_bindE (wp_resolve_moment (wp_pureE ?_)))
      refine wp_bindE (wp_mono (anyRead_spec _ _) ?_)
      rintro r ⟨n'', ts'⟩ ⟨rfl, rfl⟩
      dsimp only
      rw [seen_conflictPaths]
      cases hexact : seen ts' (fun t => !isStale cfg t now)
          [pathLockPath path, prefixedExactLockPath cfg.hash path] with
      | true => exact wp_pureE (by simp [taken, hexact])
      | false =>
          refine wp_mono (anyRead_spec _ _) ?_
          rintro r q₃ ⟨-, rfl⟩
          rw [taken, hexact, Bool.false_or]

/-- The result of a check: a conflict exactly if `b`. -/
def Reports {α : Type} (b : Bool) : Except PathLockError α → Prop
  | .ok _ => b = false
  | .error e => b = true ∧ ∃ X o k, e = .conflict X o k

theorem Reports.conflict_iff {α : Type} {b : Bool} {r : Except PathLockError α} (h : Reports b r) :
    (∃ X o k, r = .error (.conflict X o k)) ↔ b = true := by
  cases r with
  | ok a =>
      obtain rfl : b = false := h
      simp
  | error e =>
      obtain ⟨rfl, X, o, k, rfl⟩ := h
      exact ⟨fun _ => rfl, fun _ => ⟨X, o, k, rfl⟩⟩

theorem checkLockPathsFrom_reports (owner : Str) (Xs : List Str) :
    wpA (moment stat now) (checkLockPathsFrom cfg owner now Xs).run
      (fun r q => q.tokens = tokens ∧
        Reports (seen tokens (blocks cfg owner now) Xs) r) ⟨n, tokens⟩ := by
  induction Xs generalizing n with
  | nil => exact wp_pureE ⟨rfl, rfl⟩
  | cons X rest ih =>
      refine wp_bindE (wp_readToken_moment ?_)
      rw [seen_cons]
      cases hX : tokens.lookup X with
      | none => exact ih
      | some token =>
          dsimp only
          split
          · next hb => exact wp_throwE ⟨rfl, by simp [hb], _, _, _, rfl⟩
          · next hb =>
              simp only [Option.any_some, hb, Bool.false_or]
              exact ih

theorem checkAncestorsFrom_reports (owner : Str) (as : List Str) :
    wpA (moment stat now) (checkAncestorsFrom cfg owner now as).run
      (fun r q => q.tokens = tokens ∧
        Reports (seen tokens (fun t => t.lockType == .tree && blocks cfg owner now t)
          (as.map ancestorLock)) r) ⟨n, tokens⟩ := by
  induction as generalizing n with
  | nil => exact wp_pureE ⟨rfl, rfl⟩
  | cons a rest ih =>
      refine wp_bindE (wp_readToken_moment ?_)
      rw [List.map_cons, seen_cons]
      cases hX : tokens.lookup (ancestorLock a) with
      | none => exact ih
      | some token =>
          dsimp only
          split
          · next hb => exact wp_throwE ⟨rfl, by simp [hb.1, hb.2], _, _, _, rfl⟩
          · next hb =>
              have hb' : (token.lockType == .tree && blocks cfg owner now token) = false := by
                simpa using hb
              simp only [Option.any_some, hb', Bool.false_or]
              exact ih

/-- To an owner without tokens, every live token is in the way. -/
theorem blocks_fresh {owner X : Str} {t : LockToken}
    (hfresh : ∀ X t, tokens.lookup X = some t → t.ownerId ≠ owner) (ht : tokens.lookup X = some t) :
    blocks cfg owner now t = !isStale cfg t now := by
  simp [blocks, hfresh X t ht]

theorem exactPreChecks_spec {owner : Str} (path : Str)
    (hfresh : ∀ X t, tokens.lookup X = some t → t.ownerId ≠ owner) :
    wpA (moment stat now) (exactPreChecks cfg path owner).run
      (fun r q => q.tokens = tokens ∧ Reports (taken cfg tokens now path) r)
      ⟨n, tokens⟩ := by
  refine wp_bindE (wp_bindE (wp_nowNs_moment (wp_mono (checkAncestorsFrom_reports _ _) ?_)))
  rintro r ⟨n', ts⟩ ⟨rfl, hr⟩
  rw [seen_congr fun X t ht => by rw [blocks_fresh hfresh ht]] at hr
  cases r with
  | error e => exact ⟨rfl, by simp [taken, hr.1], hr.2⟩
  | ok u =>
      refine wp_bindE (wp_resolve_moment ?_)
      refine wp_bindE (wp_bindE (wp_nowNs_moment (wp_mono (checkLockPathsFrom_reports _ _) ?_)))
      rintro r ⟨n'', ts'⟩ ⟨rfl, hr'⟩
      rw [seen_congr fun X t ht => blocks_fresh hfresh ht, seen_conflictPaths] at hr'
      cases r with
      | error e => exact ⟨rfl, by simp [taken, hr'.1], hr'.2⟩
      | ok u =>
          refine wp_pureE ⟨rfl, ?_⟩
          show taken cfg ts' now path = false
          rw [taken, show seen _ _ _ = false from hr', show seen _ _ _ = false from hr,
            Bool.or_false]

/-! ## Spellings of a path -/

theorem pathLockPath_normalizePath (path : Str) :
    pathLockPath (normalizePath path) = pathLockPath path := by
  unfold pathLockPath normalizePath
  split
  · next h => rw [h]; rfl
  · rw [trimEnd_eq_self (trimEnd_getLast? '/' path)]

theorem Normal.normalizePath_eq {path : Str} (h : Normal path) : normalizePath path = path := by
  rcases h with rfl | ⟨hne, hlast⟩
  · rfl
  · simp [normalizePath, trimEnd_eq_self hlast, hne]

/-- One more trailing slash: the walk visits the shorter spelling first. -/
theorem ancestorsOf_append_slash {s : Str} (hs : s ≠ []) :
    ancestorsOf (s ++ ['/']) = s :: ancestorsOf s := by
  have hsplit : rsplitOnce '/' (s ++ ['/']) = some (s, []) := rsplitOnce_eq_some.mpr ⟨rfl, by simp⟩
  have hwalk : walkParent (s ++ ['/']) = some s := by simp [walkParent, hsplit, hs]
  rw [ancestorsOf, List.length_append, List.length_singleton, ancestorsFrom, hwalk, ancestorsOf]

theorem ancestorsOf_normalizePath_subset (path : Str) :
    ancestorsOf (normalizePath path) ⊆ ancestorsOf path := by
  unfold normalizePath
  split
  · exact List.nil_subset _
  · next h =>
      induction path using List.reverseRecOn with
      | nil => exact List.Subset.refl _
      | append_singleton s c ih =>
          by_cases hc : c = '/'
          · subst hc
            have htrim : trimEnd '/' (s ++ ['/']) = trimEnd '/' s := by simp [trimEnd]
            rw [htrim] at h ⊢
            have hs : s ≠ [] := by
              rintro rfl
              exact h rfl
            rw [ancestorsOf_append_slash hs]
            exact List.Subset.trans (ih h) (List.subset_cons_self _ _)
          · rw [trimEnd_eq_self (by simpa using hc)]
            exact List.Subset.refl _

end

/-- `is_locked` and the checks of an acquisition look at the same tokens: the
path has no superfluous slash; or something they both look at is in the way;
or, of the lock files only one of them looks at, `is_locked` finds a live one
exactly if the acquisition does. -/
def SameView (cfg : Config) (tokens : TokenMap) (now : Nat) (path : Str) : Prop :=
  Normal path ∨
    seen tokens (fun t => !isStale cfg t now) [pathLockPath path] = true ∨
    seen tokens (fun t => t.lockType == .tree && !isStale cfg t now)
      ((ancestorsOf (normalizePath path)).map ancestorLock) = true ∨
    ((seen tokens (fun t => !isStale cfg t now) [prefixedExactLockPath cfg.hash path] = true ∨
        seen tokens (fun t => t.lockType == .tree && !isStale cfg t now)
          (((ancestorsOf path).filter (· ∉ ancestorsOf (normalizePath path))).map ancestorLock) =
            true) ↔
      seen tokens (fun t => !isStale cfg t now)
        [prefixedExactLockPath cfg.hash (normalizePath path)] = true)

section

variable {cfg : Config} {tokens : TokenMap} {now : Nat}

theorem seen_ancestors_split (f : LockToken → Bool) (path : Str) :
    seen tokens f ((ancestorsOf path).map ancestorLock) = true ↔
      seen tokens f ((ancestorsOf (normalizePath path)).map ancestorLock) = true ∨
        seen tokens f (((ancestorsOf path).filter
          (· ∉ ancestorsOf (normalizePath path))).map ancestorLock) = true := by
  simp only [seen_iff, List.mem_map, List.mem_filter, decide_eq_true_eq]
  constructor
  · rintro ⟨X, ⟨a, ha, rfl⟩, h⟩
    by_cases hn : a ∈ ancestorsOf (normalizePath path)
    · exact Or.inl ⟨_, ⟨a, hn, rfl⟩, h⟩
    · exact Or.inr ⟨_, ⟨a, ⟨ha, hn⟩, rfl⟩, h⟩
  · rintro (⟨X, ⟨a, ha, rfl⟩, h⟩ | ⟨X, ⟨a, ⟨ha, -⟩, rfl⟩, h⟩)
    · exact ⟨_, ⟨a, ancestorsOf_normalizePath_subset path ha, rfl⟩, h⟩
    · exact ⟨_, ⟨a, ha, rfl⟩, h⟩

theorem taken_iff (path : Str) : taken cfg tokens now path = true ↔
    seen tokens (fun t => !isStale cfg t now) [pathLockPath path] = true ∨
      seen tokens (fun t => !isStale cfg t now) [prefixedExactLockPath cfg.hash path] = true ∨
      seen tokens (fun t => t.lockType == .tree && !isStale cfg t now)
        ((ancestorsOf path).map ancestorLock) = true := by
  simp [taken, seen, or_assoc]

theorem taken_normalizePath_iff (path : Str) :
    (taken cfg tokens now path = true ↔ taken cfg tokens now (normalizePath path) = true) ↔
      SameView cfg tokens now path := by
  have hnormal : Normal path →
      (taken cfg tokens now path = true ↔ taken cfg tokens now (normalizePath path) = true) := by
    intro h
    rw [h.normalizePath_eq]
  rw [taken_iff, taken_iff, seen_ancestors_split _ path, pathLockPath_normalizePath] at hnormal ⊢
  constructor
  · intro h
    refine or_iff_not_imp_left.mpr fun _ => or_iff_not_imp_left.mpr fun hmarker =>
      or_iff_not_imp_left.mpr fun htree => ?_
    rw [or_iff_right hmarker, or_iff_right hmarker, or_iff_right htree, or_iff_left htree] at h
    exact h
  · rintro (h | h | h | h)
    · exact hnormal h
    · exact iff_of_true (Or.inl h) (Or.inl h)
    · exact iff_of_true (Or.inr (Or.inr (Or.inl h))) (Or.inr (Or.inr h))
    · rw [← h, or_assoc, or_comm (b := seen _ _ ((ancestorsOf (normalizePath path)).map _) = true)]

end

/-! ## The comparison -/

/-- The answer of `is_locked(path, true)`. -/
def isLockedAt (cfg : Config) (stat : Str → Option NodeKind) (now : Nat)
    (tokens : TokenMap) (path : Str) : Except PathLockError Bool :=
  ((isLocked cfg path true).run.solo (moment stat now).answer ⟨0, tokens⟩).1

/-- The outcome of the checks `acquire_exact(path)` starts with. -/
def preChecksAt (cfg : Config) (stat : Str → Option NodeKind) (now : Nat)
    (tokens : TokenMap) (owner path : Str) : Except PathLockError Unit :=
  ((preChecks cfg owner (normalizeRequests [⟨path, .exact⟩])).run.solo
    (moment stat now).answer ⟨0, tokens⟩).1

section

variable {cfg : Config} {stat : Str → Option NodeKind} {now : Nat}
  {tokens : TokenMap}

theorem isLockedAt_eq (path : Str) :
    isLockedAt cfg stat now tokens path = .ok (taken cfg tokens now path) :=
  isLocked_spec path

theorem preChecksAt_reports {owner : Str} (path : Str)
    (hfresh : ∀ X t, tokens.lookup X = some t → t.ownerId ≠ owner) :
    Reports (taken cfg tokens now (normalizePath path))
      (preChecksAt cfg stat now tokens owner path) := by
  have hwp : wpA (moment stat now) (preChecks cfg owner [⟨normalizePath path, .exact⟩]).run
      (fun r _ => Reports (taken cfg tokens now (normalizePath path)) r) ⟨0, tokens⟩ := by
    refine wp_bindE (wp_mono (exactPreChecks_spec _ hfresh) ?_)
    rintro r q ⟨-, hr⟩
    cases r with
    | ok resolved => exact wp_pureE hr
    | error e => exact hr
  unfold preChecksAt
  rw [normalizeRequests_singleton]
  exact hwp

end

/-- `is_locked(path, true)` answers `true` exactly when the checks of an
acquisition by a fresh owner report a conflict, as long as both look at the
same tokens, and not otherwise. -/
theorem isLocked_agrees_iff (cfg : Config) (stat : Str → Option NodeKind) (now : Nat)
    (tokens : TokenMap) (owner path : Str)
    (hfresh : ∀ X t, tokens.lookup X = some t → t.ownerId ≠ owner) :
    (isLockedAt cfg stat now tokens path = .ok true ↔
        ∃ X o k, preChecksAt cfg stat now tokens owner path = .error (.conflict X o k)) ↔
      SameView cfg tokens now path := by
  rw [(preChecksAt_reports path hfresh).conflict_iff, isLockedAt_eq, ← taken_normalizePath_iff]
  simp

/-! ### A trailing slash -/

namespace Slash

/-- `B` holds an exact lock on the missing path `/a`. -/
def tokens : TokenMap :=
  (∅ : TokenMap).insert (prefixedExactLockPath sampleHash ['/', 'a']) ⟨['B'], 0, .exact⟩

theorem fresh : ∀ X t, tokens.lookup X = some t → t.ownerId ≠ ['C'] := by
  intro X t ht
  by_cases hX : X = prefixedExactLockPath sampleHash ['/', 'a']
  · subst hX
    rw [tokens, AList.lookup_insert] at ht
    cases ht
    decide
  · rw [tokens, AList.lookup_insert_ne hX] at ht
    cases ht

/-- Asked about `/a`, both say that it is taken. -/
theorem agrees_without_slash : SameView sampleConfig tokens 0 ['/', 'a'] ∧
    (isLockedAt sampleConfig (fun _ => none) 0 tokens ['/', 'a'] = .ok true ↔
      ∃ X o k, preChecksAt sampleConfig (fun _ => none) 0 tokens ['C'] ['/', 'a'] =
        .error (.conflict X o k)) := by
  have hview : SameView sampleConfig tokens 0 ['/', 'a'] := Or.inl (Or.inr (by decide))
  exact ⟨hview, (isLocked_agrees_iff sampleConfig (fun _ => none) 0 tokens ['C'] ['/', 'a']
    fresh).mpr hview⟩

/-- Asked about `/a/`, `is_locked` says that it is free, and an acquisition of
`/a/` runs into the lock on `/a`. -/
theorem slash_hides_exact_lock :
    isLockedAt sampleConfig (fun _ => none) 0 tokens ['/', 'a', '/'] = .ok false ∧
      preChecksAt sampleConfig (fun _ => none) 0 tokens ['C'] ['/', 'a', '/'] =
        .error (.conflict (prefixedExactLockPath sampleHash ['/', 'a']) ['B'] .exact) := by
  decide +kernel

end Slash

end OpenViking.Lock
