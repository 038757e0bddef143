/-
# `OpenViking.Git.Log` — the history of a branch, filtered by paths

`log_with_scan_limit` of `git/service.rs` and `lookup_cached` of
`git/tree_builder.rs`.  The loop follows first parents.  With a path filter it
loads the parent of every commit it looks at, compares what the paths name in
the two trees, and hands the parent over to the next round; it gives up when a
number of commits has been looked at and there are more.

    `lookupCached_eq`            the cache changes nothing about a lookup
    `logWithScanLimit_eq`        the log of a chain of commits is the commits
                                 that touch a path, up to the limit, or the
                                 error, if too few of them stand within reach

The object store is its two decoders: zlib, the object header and the parsers
of `gix` are behind them.  A loop that runs out of fuel answers `none`; along a
chain of commits it never does.
-/
import OpenViking.Git.Objects
import OpenViking.Lib.OrderedTable
import OpenViking.Lib.Results
import Mathlib.Data.List.AList

namespace OpenViking.Git

open OpenViking.Lib

/-! ## Objects -/

structure Actor where
  name : Str
  email : Str
  timeSeconds : Int
  tzOffsetSeconds : Int
  deriving DecidableEq

structure CommitMeta (Oid : Type) where
  tree : Oid
  parents : List Oid
  author : Actor
  committer : Actor
  message : Str
  deriving DecidableEq

/-- `gix_object::tree::EntryMode`, the mode bits as they are stored. -/
structure EntryMode where
  value : UInt16
  deriving DecidableEq

/-- `EntryMode::is_tree` -/
def EntryMode.isTree (mode : EntryMode) : Bool := mode.value &&& 0o170000 = 0o040000

structure TreeEntry (Oid : Type) where
  mode : EntryMode
  filename : Str
  oid : Oid
  deriving DecidableEq

/-- `load_commit_meta` and `load_tree` of an account. -/
structure ObjectStore (Oid : Type) where
  loadCommitMeta : Oid → Except (GitError Oid) (CommitMeta Oid)
  loadTree : Oid → Except (GitError Oid) (List (TreeEntry Oid))

structure LogEntry (Oid : Type) where
  oid : Oid
  tree : Oid
  parents : List Oid
  author : Actor
  committer : Actor
  message : Str
  deriving DecidableEq

/-- `log_entry_from_meta` -/
def logEntryFromMeta {Oid : Type} (oid : Oid) (m : CommitMeta Oid) : LogEntry Oid :=
  ⟨oid, m.tree, m.parents, m.author, m.committer, m.message⟩

structure LogRequest where
  limit : Nat
  paths : Option (List Str)

section

variable {Oid : Type} [DecidableEq Oid] (store : ObjectStore Oid)

/-! ## Looking up a path -/

/-- `load_tree_entries` -/
def ObjectStore.loadTreeEntries (oid : Oid) :
    Except (GitError Oid) (Table Str (TreeEntry Oid)) := do
  let entries ← store.loadTree oid
  return Table.empty.putAll (entries.map fun e => (e.filename, e))

/-- `TreeLookupCache` -/
abbrev TreeLookupCache (Oid : Type) : Type := AList fun _ : Oid => Table Str (TreeEntry Oid)

def cachedEntries (oid : Oid) (cache : TreeLookupCache Oid) :
    Except (GitError Oid) (Table Str (TreeEntry Oid) × TreeLookupCache Oid) :=
  match cache.lookup oid with
  | some entries => .ok (entries, cache)
  | none => do
      let loaded ← store.loadTreeEntries oid
      return (loaded, cache.insert oid loaded)

/-- The loop over the components. -/
def descend : Oid → List Str → TreeLookupCache Oid →
    Except (GitError Oid) (Option (Oid × EntryMode) × TreeLookupCache Oid)
  | _, [], cache => .ok (none, cache)
  | currentOid, component :: rest, cache =>
      if component = [] then .error (.other "empty path component")
      else do
        let (entries, cache) ← cachedEntries store currentOid cache
        match entries.find component with
        | none => .ok (none, cache)
        | some entry =>
            if rest = [] then .ok (some (entry.oid, entry.mode), cache)
            else if entry.mode.isTree then descend entry.oid rest cache
            else .ok (none, cache)

def lookupCached (treeOid : Oid) (path : Str) (cache : TreeLookupCache Oid) :
    Except (GitError Oid) (Option (Oid × EntryMode) × TreeLookupCache Oid) :=
  if path = [] then .error (.other "empty path") else descend store treeOid (path.splitOn '/') cache

/-- The same in the tree of a parent, if there is one. -/
def lookupParent (parentTree : Option Oid) (path : Str) (cache : TreeLookupCache Oid) :
    Except (GitError Oid) (Option (Oid × EntryMode) × TreeLookupCache Oid) :=
  match parentTree with
  | some tree => lookupCached store tree path cache
  | none => .ok (none, cache)

/-- The loop of `commit_touches_any_path`; it stops at the first difference. -/
def touchesLoop (currentTree : Oid) (parentTree : Option Oid) :
    List Str → TreeLookupCache Oid → TreeLookupCache Oid → Except (GitError Oid) Bool
  | [], _, _ => .ok false
  | path :: paths, currentCache, parentCache => do
      let (current, currentCache) ← lookupCached store currentTree path currentCache
      let (parent, parentCache) ← lookupParent store parentTree path parentCache
      if current ≠ parent then .ok true
      else touchesLoop currentTree parentTree paths currentCache parentCache

def commitTouchesAnyPath (currentTree : Oid) (parentTree : Option Oid) (paths : List Str) :
    Except (GitError Oid) Bool :=
  touchesLoop store currentTree parentTree paths ∅ ∅

/-! ## The walk -/

/-- The metadata of the parent, when there is a filter that needs it. -/
def prefetchParent (paths : Option (List Str)) (parentOid : Option Oid) :
    Except (GitError Oid) (Option (CommitMeta Oid)) :=
  match paths, parentOid with
  | some _, some parent => some <$> store.loadCommitMeta parent
  | _, _ => .ok none

def includes (paths : Option (List Str)) (m : CommitMeta Oid)
    (parentMeta : Option (CommitMeta Oid)) : Except (GitError Oid) Bool :=
  match paths with
  | none => .ok true
  | some paths => commitTouchesAnyPath store m.tree (parentMeta.map (·.tree)) paths

/-- `next_meta.take()`, or the commit is loaded -/
def takeMeta (nextMeta : Option (CommitMeta Oid)) (commitOid : Oid) :
    Except (GitError Oid) (CommitMeta Oid) :=
  match nextMeta with
  | some m => .ok m
  | none => store.loadCommitMeta commitOid

/-- What a round finds out about a commit: its metadata, those of its parent, and whether it
belongs into the log. -/
def examine (paths : Option (List Str)) (nextMeta : Option (CommitMeta Oid)) (commitOid : Oid) :
    Except (GitError Oid) (CommitMeta Oid × Option (CommitMeta Oid) × Bool) := do
  let m ← takeMeta store nextMeta commitOid
  let parentMeta ← prefetchParent store paths m.parents.head?
  let included ← includes store paths m parentMeta
  return (m, parentMeta, included)

/-- The loop of `log_with_scan_limit`. -/
def logLoop (req : LogRequest) (maxCommitsScanned : Nat) : Nat → Option Oid →
    Option (CommitMeta Oid) → Nat → List (LogEntry Oid) →
    Option (Except (GitError Oid) (List (LogEntry Oid)))
  | _, none, _, _, out => some (.ok out)
  | 0, some _, _, _, _ => none
  | fuel + 1, some commitOid, nextMeta, scanned, out =>
      match examine store req.paths nextMeta commitOid with
      | .error e => some (.error e)
      | .ok (m, parentMeta, included) =>
          let scanned := if req.paths.isSome then scanned + 1 else scanned
          let out := if included then out ++ [logEntryFromMeta commitOid m] else out
          if included && req.limit ≤ out.length then some (.ok out)
          else if req.paths.isSome && maxCommitsScanned ≤ scanned && m.parents.head?.isSome then
            some (.error (.logScanLimitExceeded scanned maxCommitsScanned out.length req.limit))
          else logLoop req maxCommitsScanned fuel m.parents.head? parentMeta scanned out

/-- `log_with_scan_limit`; `head` is what `resolve_ref` answers. -/
def logWithScanLimit (head : Except (GitError Oid) Oid) (req : LogRequest)
    (maxCommitsScanned fuel : Nat) : Option (Except (GitError Oid) (List (LogEntry Oid))) :=
  match head with
  | .error e => some (.error e)
  | .ok oid => logLoop store req maxCommitsScanned fuel (some oid) none 0 []

/-! ## The request -/

/-- The first complaint about a component, in the order of the components. -/
def complaint : List Str → Option String
  | [] => none
  | c :: cs =>
      if c = [] then some "path contains empty segment"
      else if c = ['.'] ∨ c = ['.', '.'] then some "path contains '.' or '..' segment"
      else complaint cs

/-- `validate_relative_path`, as the complaint about the path if there is one -/
def validateRelativePath (path : Str) : Option String :=
  if path = [] then some "path must be non-empty"
  else if path.head? = some '/' ∨ path.getLast? = some '/' then
    some "path must not start or end with '/'"
  else
    match complaint (path.splitOn '/') with
    | some reason => some reason
    | none =>
        if '\\' ∈ path then some "path must not contain backslash"
        else if path.any fun c => c.toNat < 0x20 || c.toNat = 0x7f then
          some "path contains control character"
        else none

/-! ## What the paths name -/

/-- What a path names in a tree: follow the directories, take the last entry. -/
def entryAt : Oid → List Str → Option (Oid × EntryMode)
  | _, [] => none
  | tree, component :: rest =>
      match store.loadTreeEntries tree with
      | .error _ => none
      | .ok entries =>
          (entries.find component).bind fun entry =>
            if rest = [] then some (entry.oid, entry.mode)
            else if entry.mode.isTree then entryAt entry.oid rest
            else none

/-- A directory below a tree, at any depth -/
inductive HasDir : Oid → Oid → Prop
  | here (tree : Oid) : HasDir tree tree
  | step {tree oid : Oid} {entries : Table Str (TreeEntry Oid)} {name : Str}
      {entry : TreeEntry Oid} : store.loadTreeEntries tree = .ok entries →
      entries.find name = some entry → entry.mode.isTree = true → HasDir entry.oid oid →
      HasDir tree oid

/-- The tree and the directories below it can be read. -/
def Whole (tree : Oid) : Prop :=
  ∀ oid, HasDir store tree oid → ∃ entries, store.loadTreeEntries oid = .ok entries

/-- The cache holds what the store would answer. -/
def Sound (cache : TreeLookupCache Oid) : Prop :=
  ∀ oid entries, cache.lookup oid = some entries → store.loadTreeEntries oid = .ok entries

variable {store} {cache : TreeLookupCache Oid}

theorem sound_empty : Sound store (∅ : TreeLookupCache Oid) := by
  intro oid entries h
  cases h

theorem cachedEntries_eq (hcache : Sound store cache) {oid : Oid}
    {entries : Table Str (TreeEntry Oid)} (hload : store.loadTreeEntries oid = .ok entries) :
    ∃ cache', cachedEntries store oid cache = .ok (entries, cache') ∧ Sound store cache' := by
  unfold cachedEntries
  cases hlook : cache.lookup oid with
  | some cached =>
      cases hload.symm.trans (hcache oid cached hlook)
      exact ⟨cache, rfl, hcache⟩
  | none =>
      rw [hload]
      refine ⟨cache.insert oid entries, rfl, fun oid' entries' h => ?_⟩
      by_cases ho : oid' = oid
      · subst ho
        rw [AList.lookup_insert] at h
        cases h
        exact hload
      · rw [AList.lookup_insert_ne ho] at h
        exact hcache oid' entries' h

/-- The induction is on the components, from tree to tree. -/
theorem descend_eq {components : List Str} (hcomponents : [] ∉ components) {tree : Oid}
    (hwhole : Whole store tree) (hcache : Sound store cache) :
    ∃ cache', descend store tree components cache = .ok (entryAt store tree components, cache') ∧
      Sound store cache' := by
  induction components generalizing tree cache with
  | nil => exact ⟨cache, rfl, hcache⟩
  | cons component rest ih =>
      rw [List.mem_cons, not_or] at hcomponents
      obtain ⟨hne, hrest⟩ := hcomponents
      obtain ⟨entries, hload⟩ := hwhole tree (.here tree)
      obtain ⟨cache', hcached, hcache'⟩ := cachedEntries_eq hcache hload
      unfold descend entryAt
      rw [if_neg (Ne.symm hne), hcached, hload, ok_bind]
      cases hfind : entries.find component with
      | none => exact ⟨cache', by simp [hfind], hcache'⟩
      | some entry =>
          simp only [hfind, Option.bind_some]
          by_cases hlast : rest = []
          · simp only [hlast, if_true]
            exact ⟨cache', rfl, hcache'⟩
          · simp only [hlast, if_false]
            cases htree : entry.mode.isTree with
            | false => exact ⟨cache', rfl, hcache'⟩
            | true =>
                have hsub : Whole store entry.oid :=
                  fun oid hoid => hwhole oid (.step hload hfind htree hoid)
                exact ih hrest hsub hcache'

/-- A path as `validate_relative_path` lets it through -/
def Normalized (path : Str) : Prop := validateRelativePath path = none

theorem nil_notMem_of_complaint {cs : List Str} (h : complaint cs = none) : [] ∉ cs := by
  induction cs with
  | nil => exact List.not_mem_nil
  | cons c cs ih =>
      unfold complaint at h
      split at h
      · cases h
      · next hne =>
          split at h
          · cases h
          · intro hmem
            rcases List.mem_cons.mp hmem with hc | hmem
            · exact hne hc.symm
            · exact ih h hmem

theorem Normalized.components {path : Str} (h : Normalized path) :
    path ≠ [] ∧ [] ∉ path.splitOn '/' := by
  unfold Normalized validateRelativePath at h
  split at h
  · cases h
  · next hne =>
      split at h
      · cases h
      · split at h
        · cases h
        · next hnone => exact ⟨hne, nil_notMem_of_complaint hnone⟩

theorem lookupCached_eq {path : Str} (hpath : Normalized path) {tree : Oid}
    (hwhole : Whole store tree) (hcache : Sound store cache) :
    ∃ cache', lookupCached store tree path cache =
      .ok (entryAt store tree (path.splitOn '/'), cache') ∧ Sound store cache' := by
  unfold lookupCached
  rw [if_neg hpath.components.1]
  exact descend_eq hpath.components.2 hwhole hcache

variable (store)

/-- Does one of the paths name something else in the tree than in the parent's? -/
def touches (paths : List Str) (tree : Oid) (parentTree : Option Oid) : Bool :=
  paths.any fun p =>
    entryAt store tree (p.splitOn '/') ≠ parentTree.bind fun t => entryAt store t (p.splitOn '/')

variable {store}

theorem commitTouchesAnyPath_eq {paths : List Str} (hpaths : ∀ p ∈ paths, Normalized p)
    {tree : Oid} {parentTree : Option Oid} (htree : Whole store tree)
    (hparent : ∀ t, parentTree = some t → Whole store t) :
    commitTouchesAnyPath store tree parentTree paths =
      .ok (touches store paths tree parentTree) := by
  have key : ∀ (c c' : TreeLookupCache Oid), Sound store c → Sound store c' →
      touchesLoop store tree parentTree paths c c' = .ok (touches store paths tree parentTree) := by
    induction paths with
    | nil =>
        intro c c' _ _
        rfl
    | cons path paths ih =>
        intro c c' hc hc'
        have hpath := hpaths path List.mem_cons_self
        obtain ⟨c₁, hcurrent, hc₁⟩ := lookupCached_eq hpath htree hc
        obtain ⟨c₂, hbefore, hc₂⟩ : ∃ c₂, lookupParent store parentTree path c' =
            .ok (parentTree.bind fun t => entryAt store t (path.splitOn '/'), c₂) ∧
              Sound store c₂ := by
          cases parentTree with
          | none => exact ⟨c', rfl, hc'⟩
          | some t => exact lookupCached_eq hpath (hparent t rfl) hc'
        unfold touchesLoop
        rw [hcurrent, ok_bind]
        dsimp only
        rw [hbefore, ok_bind]
        dsimp only
        have htail := ih (fun p hp => hpaths p (List.mem_cons_of_mem _ hp)) c₁ c₂ hc₁ hc₂
        unfold touches at htail ⊢
        rw [List.any_cons]
        split
        · next hdiff =>
            rw [decide_eq_true hdiff]
            rfl
        · next hsame =>
            rw [decide_eq_false hsame, Bool.false_or]
            exact htail
  exact key ∅ ∅ sound_empty sound_empty

/-! ## Chains of commits -/

variable (store)

/-- The commits from one to its root, along first parents. -/
inductive FirstParents : Oid → List (Oid × CommitMeta Oid) → Prop
  | root {c : Oid} {m : CommitMeta Oid} : store.loadCommitMeta c = .ok m →
      m.parents.head? = none → FirstParents c [(c, m)]
  | step {c parent : Oid} {m : CommitMeta Oid} {rest : List (Oid × CommitMeta Oid)} :
      store.loadCommitMeta c = .ok m → m.parents.head? = some parent →
      FirstParents parent rest → FirstParents c ((c, m) :: rest)

/-- Every commit with the answer whether it touches a path, compared with the next one. -/
def marked (paths : List Str) :
    List (Oid × CommitMeta Oid) → List ((Oid × CommitMeta Oid) × Bool)
  | [] => []
  | c :: rest =>
      (c, touches store paths c.2.tree (rest.head?.map (·.2.tree))) :: marked paths rest

/-- The entries of the commits that touch a path. -/
def touching (ms : List ((Oid × CommitMeta Oid) × Bool)) : List (LogEntry Oid) :=
  (ms.filter (·.2)).map fun x => logEntryFromMeta x.1.1 x.1.2

/-- What a log should be, given `out` before and a number of commits to look at. -/
def expected (req : LogRequest) (maxScanned quota : Nat) (out : List (LogEntry Oid))
    (ms : List ((Oid × CommitMeta Oid) × Bool)) : Except (GitError Oid) (List (LogEntry Oid)) :=
  if (out ++ touching (ms.take quota)).length < req.limit ∧ quota < ms.length then
    .error (.logScanLimitExceeded maxScanned maxScanned (out ++ touching (ms.take quota)).length
      req.limit)
  else .ok ((out ++ touching ms).take req.limit)

variable {store}

omit [DecidableEq Oid] in
@[simp] theorem touching_cons (x : (Oid × CommitMeta Oid) × Bool)
    (ms : List ((Oid × CommitMeta Oid) × Bool)) :
    touching (x :: ms) =
      if x.2 then logEntryFromMeta x.1.1 x.1.2 :: touching ms else touching ms := by
  unfold touching
  cases hx : x.2 with
  | true => simp [hx]
  | false => simp [hx]

omit [DecidableEq Oid] in
theorem FirstParents.head {c : Oid} {chain : List (Oid × CommitMeta Oid)}
    (h : FirstParents store c chain) :
    ∃ m rest, chain = (c, m) :: rest ∧ store.loadCommitMeta c = .ok m ∧
      (∀ r m', rest.head? = some (r, m') → store.loadCommitMeta r = .ok m') ∧
      m.parents.head? = rest.head?.map Prod.fst := by
  cases h with
  | @root c m hload hnone =>
      refine ⟨m, [], rfl, hload, fun r m' hr => ?_, hnone⟩
      cases hr
  | @step c parent m rest hload hparent hrest =>
      refine ⟨m, rest, rfl, hload, fun r m' hr => ?_, ?_⟩
      · cases hrest with
        | root hload' _ =>
            cases hr
            exact hload'
        | step hload' _ _ =>
            cases hr
            exact hload'
      · rw [hparent]
        cases hrest with
        | root _ _ => rfl
        | step _ _ _ => rfl

omit [DecidableEq Oid] in
/-- The prefetched metadata of the parent. -/
theorem prefetchParent_eq {paths : List Str} {m : CommitMeta Oid}
    {rest : List (Oid × CommitMeta Oid)}
    (hparent : m.parents.head? = rest.head?.map Prod.fst)
    (hload : ∀ r m', rest.head? = some (r, m') → store.loadCommitMeta r = .ok m') :
    prefetchParent store (some paths) m.parents.head? = .ok (rest.head?.map Prod.snd) := by
  rw [hparent]
  cases rest with
  | nil => rfl
  | cons x rest =>
      have hx : store.loadCommitMeta x.1 = .ok x.2 := hload x.1 x.2 rfl
      change some <$> store.loadCommitMeta x.1 = _
      rw [hx]
      rfl

/-- One round at the end of the chain, or before. -/
theorem logLoop_succ {req : LogRequest} {paths : List Str} (hreq : req.paths = some paths)
    (hpaths : ∀ p ∈ paths, Normalized p) {c : Oid} {m : CommitMeta Oid}
    {rest : List (Oid × CommitMeta Oid)} (hchain : FirstParents store c ((c, m) :: rest))
    (hwhole : ∀ x ∈ (c, m) :: rest, Whole store x.2.tree) {nextMeta : Option (CommitMeta Oid)}
    (hmeta : ∀ m', nextMeta = some m' → m' = m) (maxScanned fuel scanned : Nat)
    (out : List (LogEntry Oid)) :
    logLoop store req maxScanned (fuel + 1) (some c) nextMeta scanned out =
      let hit := touches store paths m.tree (rest.head?.map (·.2.tree))
      let out' := if hit then out ++ [logEntryFromMeta c m] else out
      if hit && req.limit ≤ out'.length then some (.ok out')
      else if maxScanned ≤ scanned + 1 && (rest.head?.map Prod.fst).isSome then
        some (.error (.logScanLimitExceeded (scanned + 1) maxScanned out'.length req.limit))
      else
        logLoop store req maxScanned fuel (rest.head?.map Prod.fst) (rest.head?.map Prod.snd)
          (scanned + 1) out' := by
  obtain ⟨m', rest', heq, hload, hnext, hparent⟩ := hchain.head
  cases heq
  have hmeta' : takeMeta store nextMeta c = .ok m := by
    cases nextMeta with
    | none => exact hload
    | some m' =>
        rw [hmeta m' rfl]
        rfl
  have htouches : includes store req.paths m (rest.head?.map Prod.snd) =
      .ok (touches store paths m.tree (rest.head?.map (·.2.tree))) := by
    unfold includes
    rw [hreq]
    change commitTouchesAnyPath store m.tree ((rest.head?.map Prod.snd).map (·.tree)) paths = _
    rw [Option.map_map]
    refine commitTouchesAnyPath_eq hpaths (hwhole _ List.mem_cons_self) fun t ht => ?_
    obtain ⟨x, hx, rfl⟩ := Option.map_eq_some_iff.mp ht
    exact hwhole x (List.mem_cons_of_mem _ (List.mem_of_mem_head? hx))
  have hfetch : prefetchParent store req.paths m.parents.head? =
      .ok (rest.head?.map Prod.snd) := by
    rw [hreq]
    exact prefetchParent_eq hparent hnext
  have hexamine : examine store req.paths nextMeta c =
      .ok (m, rest.head?.map Prod.snd,
        touches store paths m.tree (rest.head?.map (·.2.tree))) := by
    unfold examine
    rw [hmeta', ok_bind, hfetch, ok_bind, htouches]
    rfl
  rw [logLoop, hexamine]
  dsimp only
  rw [hparent, hreq]
  rfl

omit [DecidableEq Oid] in
/-- What is expected, commit by commit. -/
theorem expected_cons {req : LogRequest} {maxScanned quota : Nat} {out : List (LogEntry Oid)}
    (hout : out.length < req.limit) (x : (Oid × CommitMeta Oid) × Bool)
    (ms : List ((Oid × CommitMeta Oid) × Bool)) :
    expected req maxScanned (quota + 1) out (x :: ms) =
      let out' := if x.2 then out ++ [logEntryFromMeta x.1.1 x.1.2] else out
      if x.2 && req.limit ≤ out'.length then .ok out'
      else expected req maxScanned quota out' ms := by
  have hlength : (x :: ms).length = ms.length + 1 := rfl
  unfold expected
  rw [List.take_succ_cons, hlength]
  cases hx : x.2 with
  | false => simp [hx]
  | true =>
      simp only [touching_cons, hx, if_true, Bool.true_and, decide_eq_true_eq, List.append_assoc,
        List.cons_append, List.nil_append, Nat.add_lt_add_iff_right]
      by_cases hfull : req.limit ≤ (out ++ [logEntryFromMeta x.1.1 x.1.2]).length
      · -- the commit is the last that is asked for
        rw [if_pos hfull]
        rw [List.length_append, List.length_singleton] at hfull
        have hlimit : req.limit = out.length + 1 := by omega
        rw [if_neg (by rw [List.length_append, List.length_cons]; omega), hlimit,
          List.take_append, List.take_of_length_le (by omega), Nat.add_sub_cancel_left]
        rfl
      · rw [if_neg hfull]

omit [DecidableEq Oid] in
theorem expected_zero {req : LogRequest} {maxScanned : Nat} {out : List (LogEntry Oid)}
    (hout : out.length < req.limit) {ms : List ((Oid × CommitMeta Oid) × Bool)} (hms : ms ≠ []) :
    expected req maxScanned 0 out ms =
      .error (.logScanLimitExceeded maxScanned maxScanned out.length req.limit) := by
  have hnil : touching (ms.take 0) = [] := rfl
  unfold expected
  rw [hnil, List.append_nil, if_pos ⟨hout, List.length_pos_iff.mpr hms⟩]

omit [DecidableEq Oid] in
theorem expected_nil {req : LogRequest} {maxScanned quota : Nat} {out : List (LogEntry Oid)}
    (hout : out.length < req.limit) : expected req maxScanned quota out [] = .ok out := by
  have hnil : touching ([] : List ((Oid × CommitMeta Oid) × Bool)) = [] := rfl
  unfold expected
  rw [if_neg (fun h => Nat.not_lt_zero _ h.2), hnil, List.append_nil,
    List.take_of_length_le hout.le]

/-- One round gives what is expected, when the rounds after it do. -/
theorem logLoop_round {req : LogRequest} {paths : List Str} (hreq : req.paths = some paths)
    (hpaths : ∀ p ∈ paths, Normalized p) {maxScanned : Nat} {c : Oid} {m : CommitMeta Oid}
    {rest : List (Oid × CommitMeta Oid)} (hchain : FirstParents store c ((c, m) :: rest))
    (hwhole : ∀ x ∈ (c, m) :: rest, Whole store x.2.tree) {nextMeta : Option (CommitMeta Oid)}
    (hmeta : ∀ m', nextMeta = some m' → m' = m) {fuel scanned : Nat}
    (hscanned : scanned < maxScanned) {out : List (LogEntry Oid)} (hout : out.length < req.limit)
    (hnext : ∀ p m' out', rest.head? = some (p, m') → scanned + 1 < maxScanned →
      out'.length < req.limit →
      logLoop store req maxScanned fuel (some p) (some m') (scanned + 1) out' =
        some (expected req maxScanned (maxScanned - (scanned + 1)) out'
          (marked store paths rest))) :
    logLoop store req maxScanned (fuel + 1) (some c) nextMeta scanned out =
      some (expected req maxScanned (maxScanned - scanned) out
        (marked store paths ((c, m) :: rest))) := by
  have hquota : maxScanned - scanned = maxScanned - (scanned + 1) + 1 := by omega
  rw [logLoop_succ hreq hpaths hchain hwhole hmeta, hquota, marked, expected_cons hout]
  dsimp only
  generalize hhit : touches store paths m.tree (rest.head?.map (·.2.tree)) = hit
  generalize hadd : (if hit then out ++ [logEntryFromMeta c m] else out) = out'
  by_cases hfull : (hit && req.limit ≤ out'.length) = true
  · rw [if_pos hfull, if_pos hfull]
  · rw [if_neg hfull, if_neg hfull]
    have hout' : out'.length < req.limit := by
      cases hit with
      | true => simpa using hfull
      | false =>
          rw [← hadd]
          exact hout
    cases hrest : rest with
    | nil =>
        rw [List.head?_nil, Option.map_none, Option.isSome_none, Bool.and_false,
          if_neg Bool.false_ne_true, marked, expected_nil hout']
        cases fuel with
        | zero => rfl
        | succ fuel => rfl
    | cons x tail =>
        rw [← hrest]
        have hhead : rest.head? = some (x.1, x.2) := by rw [hrest, List.head?_cons]
        simp only [hhead, Option.map_some, Option.isSome_some, Bool.and_true, decide_eq_true_eq]
        by_cases hlast : maxScanned ≤ scanned + 1
        · have hmarked : marked store paths rest ≠ [] := by
            rw [hrest, marked]
            exact List.cons_ne_nil _ _
          have hall : maxScanned = scanned + 1 := by omega
          rw [if_pos hlast, Nat.sub_eq_zero_of_le hlast, expected_zero hout' hmarked, hall]
        · rw [if_neg hlast]
          exact hnext x.1 x.2 out' hhead (Nat.lt_of_not_le hlast) hout'

/-- The loop from any commit: the induction is on the chain below it. -/
theorem logLoop_eq {req : LogRequest} {paths : List Str} (hreq : req.paths = some paths)
    (hpaths : ∀ p ∈ paths, Normalized p) {maxScanned : Nat} {c : Oid}
    {chain : List (Oid × CommitMeta Oid)} (hchain : FirstParents store c chain)
    (hwhole : ∀ x ∈ chain, Whole store x.2.tree) {nextMeta : Option (CommitMeta Oid)}
    (hmeta : ∀ m, nextMeta = some m → store.loadCommitMeta c = .ok m) {fuel scanned : Nat}
    (hfuel : chain.length < fuel) (hscanned : scanned < maxScanned) {out : List (LogEntry Oid)}
    (hout : out.length < req.limit) :
    logLoop store req maxScanned fuel (some c) nextMeta scanned out =
      some (expected req maxScanned (maxScanned - scanned) out (marked store paths chain)) := by
  induction hchain generalizing nextMeta fuel scanned out with
  | @root c m hload hnone =>
      obtain ⟨fuel, rfl⟩ : ∃ n, fuel = n + 1 := ⟨fuel - 1, by omega⟩
      refine logLoop_round hreq hpaths (.root hload hnone) hwhole (fun m' hm' => ?_) hscanned hout
        (fun p m' out' hhead => ?_)
      · exact Except.ok.inj ((hmeta m' hm').symm.trans hload)
      · cases hhead
  | @step c parent m rest hload hparent hrest ih =>
      obtain ⟨fuel, rfl⟩ : ∃ n, fuel = n + 1 := ⟨fuel - 1, by omega⟩
      refine logLoop_round hreq hpaths (.step hload hparent hrest) hwhole (fun m' hm' => ?_)
        hscanned hout (fun p m' out' hhead hmore hout' => ?_)
      · exact Except.ok.inj ((hmeta m' hm').symm.trans hload)
      · obtain ⟨m'', rest', rfl, hload'', -, -⟩ := hrest.head
        obtain ⟨rfl, rfl⟩ := Prod.mk.inj (Option.some.inj hhead)
        refine ih (fun x hx => hwhole x (List.mem_cons_of_mem _ hx)) ?_ ?_ hmore hout'
        · intro m₁ hm₁
          cases hm₁
          exact hload''
        · rw [List.length_cons] at hfuel ⊢
          rw [List.length_cons] at hfuel
          omega

/-- The log of a request with paths: the commits of the first-parent chain that touch one
of them, in order, up to the limit; or the error, when the limit is not reached within the
commits that may be looked at and there are more. -/
theorem logWithScanLimit_eq {req : LogRequest} {paths : List Str} (hreq : req.paths = some paths)
    (hpaths : ∀ p ∈ paths, Normalized p) {head : Except (GitError Oid) Oid} {c : Oid}
    (hhead : head = .ok c) {chain : List (Oid × CommitMeta Oid)}
    (hchain : FirstParents store c chain) (hwhole : ∀ x ∈ chain, Whole store x.2.tree)
    (hlimit : 0 < req.limit) {maxScanned : Nat} (hmax : 0 < maxScanned) {fuel : Nat}
    (hfuel : chain.length < fuel) :
    logWithScanLimit store head req maxScanned fuel =
      some (expected req maxScanned maxScanned [] (marked store paths chain)) := by
  subst hhead
  refine logLoop_eq hreq hpaths hchain hwhole ?_ hfuel hmax hlimit
  intro m hm
  cases hm

end

/-! ## A history of two commits -/

namespace TwoCommits

def someone : Actor := ⟨"a".toList, "a@b".toList, 0, 0⟩

def second : CommitMeta Nat := ⟨20, [], someone, someone, "second".toList⟩

def first : CommitMeta Nat := ⟨10, [2], someone, someone, "first".toList⟩

/-- Both trees have one file `f`, and it differs. -/
def tree (n : Nat) : List (TreeEntry Nat) := [⟨⟨0o100644⟩, "f".toList, n⟩]

def store : ObjectStore Nat where
  loadCommitMeta oid := .ok (if oid = 1 then first else second)
  loadTree oid := .ok (tree oid)

theorem whole (oid : Nat) : Whole store oid := by
  intro oid' _
  exact ⟨_, rfl⟩

theorem chain : FirstParents store 1 [(1, first), (2, second)] :=
  .step rfl rfl (.root rfl rfl)

/-- The change of `f` is found at the last commit that may be looked at. -/
theorem found_in_reach :
    logWithScanLimit store (.ok 1) ⟨1, some ["f".toList]⟩ 1 3 =
      some (.ok [logEntryFromMeta 1 first]) := by
  have hpaths : ∀ p ∈ ["f".toList], Normalized p := by
    intro p hp
    rw [List.mem_singleton.mp hp]
    rfl
  rw [logWithScanLimit_eq rfl hpaths rfl chain (fun x _ => whole x.2.tree) Nat.one_pos Nat.one_pos
    (by decide)]
  rfl

end TwoCommits

end OpenViking.Git
