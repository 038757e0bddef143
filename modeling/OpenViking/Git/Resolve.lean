/-
# `OpenViking.Git.Resolve` — abbreviated commit ids

`resolve_abbreviated_oid` of `git/service.rs`: a search through the commits
reachable from the refs, with a limit on the commits it visits and an early
stop when more candidates have turned up than it would report.

The source counts the visited ids and gives up above the limit.  Here the
search has a budget of visits, and giving up is running out of it; the search
is therefore total, and `resolve_abbreviated_oid_unique` shows that the limit
is never met in a history that is small enough.
-/
import OpenViking.Git.Objects
import OpenViking.Lib.Worklist

namespace OpenViking.Git

open OpenViking.Lib

/-- `MAX_OID_RESOLVE_VISITED` -/
def maxOidResolveVisited : Nat := 50000

/-- `MAX_REPORTED_CANDIDATES` -/
def maxReportedCandidates : Nat := 5

/-- Pop ids until one has not been visited. -/
def popUnvisited (visited : List ObjectId) : List ObjectId → Option (ObjectId × List ObjectId)
  | [] => none
  | oid :: rest => if oid ∈ visited then popUnvisited visited rest else some (oid, rest)

def abortedError : GitError ObjectId :=
  .other "OID prefix resolution aborted: scanned over 50000 commits without converging"

section

variable (load : ObjectId → Except (GitError ObjectId) (List ObjectId)) (digits : Str)

/-- The loop.  The queue is a stack with its top first, so the parents of a
commit go on it in reverse. -/
def scan : Nat → List ObjectId → List ObjectId → List ObjectId →
    Except (GitError ObjectId) (List ObjectId)
  | budget, visited, queue, found =>
      match popUnvisited visited queue with
      | none => .ok found
      | some (oid, rest) =>
          match budget with
          | 0 => .error abortedError
          | budget + 1 =>
              let hit := digits.isPrefixOf oid.hex
              let found := if hit then found ++ [oid] else found
              if hit ∧ maxReportedCandidates < found.length then .ok found
              else
                match load oid with
                | .ok parents =>
                    scan budget (oid :: visited)
                      ((parents.filter (· ∉ oid :: visited)).reverse ++ rest) found
                -- a missing object, or no commit
                | .error (.objectStore (.notFound _)) => scan budget (oid :: visited) rest found
                | .error (.other _) => scan budget (oid :: visited) rest found
                | .error e => .error e

end

/-- `join(", ")` -/
def joinComma : List Str → Str
  | [] => []
  | [s] => s
  | s :: rest => s ++ ',' :: ' ' :: joinComma rest

/-- The verdict on the candidates found. -/
def judge (digits : Str) : List ObjectId → Except (GitError ObjectId) ObjectId
  | [] => .error (.oidPrefixNotFound digits)
  | [oid] => .ok oid
  | found => .error (.ambiguousOid digits found.length
      (joinComma ((found.take maxReportedCandidates).map (·.hex))))

/-- `refs` is what `ref_store.list(account, "refs/")` returns, `load` reads
the parents of a commit (`load_commit_meta`). -/
def resolveAbbreviatedOid (refs : Except (GitError ObjectId) (List (Str × ObjectId)))
    (load : ObjectId → Except (GitError ObjectId) (List ObjectId)) (digits : Str) :
    Except (GitError ObjectId) ObjectId := do
  let tips ← refs
  let found ← scan load (digits.map Char.toLower) maxOidResolveVisited []
    (tips.map (·.2)).reverse []
  judge digits found

/-! ## The commit graph -/

/-- The parent links of an id; none from a missing object or a non-commit. -/
def parentsOf (load : ObjectId → Except (GitError ObjectId) (List ObjectId)) (oid : ObjectId) :
    List ObjectId :=
  match load oid with
  | .ok parents => parents
  | .error _ => []

/-- The id is a commit, missing, or an object of another kind: reading it
meets no fault of the store. -/
def Readable (load : ObjectId → Except (GitError ObjectId) (List ObjectId))
    (oid : ObjectId) : Prop :=
  match load oid with
  | .ok _ => True
  | .error (.objectStore (.notFound _)) => True
  | .error (.other _) => True
  | .error _ => False

/-- The ids reachable from the refs through parent links. -/
def Reachable (load : ObjectId → Except (GitError ObjectId) (List ObjectId))
    (refs : List (Str × ObjectId)) :
    ObjectId → Prop :=
  Reaches (parentsOf load) (refs.map (·.2))

section

variable {load : ObjectId → Except (GitError ObjectId) (List ObjectId)} {digits : Str}
  {roots visited queue found : List ObjectId}

theorem popUnvisited_none (hexp : Explored (parentsOf load) roots visited queue)
    (h : popUnvisited visited queue = none) : Explored (parentsOf load) roots visited [] := by
  induction queue with
  | nil => exact hexp
  | cons oid rest ih =>
      rw [popUnvisited] at h
      split at h
      · next hmem => exact ih (hexp.skip hmem) h
      · cases h

theorem popUnvisited_some {oid : ObjectId} {rest : List ObjectId}
    (hexp : Explored (parentsOf load) roots visited queue)
    (h : popUnvisited visited queue = some (oid, rest)) :
    Explored (parentsOf load) roots visited (oid :: rest) ∧ oid ∉ visited := by
  induction queue with
  | nil => cases h
  | cons o queue ih =>
      rw [popUnvisited] at h
      split at h
      · next hmem => exact ih (hexp.skip hmem) h
      · next hmem =>
          cases h
          exact ⟨hexp, hmem⟩

/-- What the loop has found so far: the visited ids that match. -/
structure Collected (digits : Str) (visited found : List ObjectId) : Prop where
  nodup : found.Nodup
  mem : ∀ oid, oid ∈ found ↔ oid ∈ visited ∧ digits <+: oid.hex

theorem Collected.visit {oid : ObjectId} (h : Collected digits visited found)
    (hoid : oid ∉ visited) :
    Collected digits (oid :: visited)
      (if digits.isPrefixOf oid.hex then found ++ [oid] else found) := by
  have hnot : oid ∉ found := fun hmem => hoid ((h.mem oid).mp hmem).1
  split
  · next hhit =>
      rw [List.isPrefixOf_iff_prefix] at hhit
      refine ⟨List.nodup_append.mpr ⟨h.nodup, List.pairwise_singleton _ _, ?_⟩, ?_⟩
      · rintro a ha b hb rfl
        obtain rfl := List.mem_singleton.mp hb
        exact hnot ha
      · intro o
        rw [List.mem_append, List.mem_singleton, List.mem_cons, h.mem]
        constructor
        · rintro (⟨hv, hd⟩ | rfl)
          · exact ⟨Or.inr hv, hd⟩
          · exact ⟨Or.inl rfl, hhit⟩
        · rintro ⟨rfl | hv, hd⟩
          · exact Or.inr rfl
          · exact Or.inl ⟨hv, hd⟩
  · next hhit =>
      rw [List.isPrefixOf_iff_prefix] at hhit
      refine ⟨h.nodup, fun o => ?_⟩
      rw [List.mem_cons, h.mem]
      constructor
      · rintro ⟨hv, hd⟩
        exact ⟨Or.inr hv, hd⟩
      · rintro ⟨rfl | hv, hd⟩
        · exact absurd hd hhit
        · exact ⟨hv, hd⟩

/-- What a finished loop returns: only candidates, and all of them unless
there are more than it reports. -/
structure Outcome (load : ObjectId → Except (GitError ObjectId) (List ObjectId)) (digits : Str)
    (roots all : List ObjectId) : Prop where
  nodup : all.Nodup
  sound : ∀ oid ∈ all, Reaches (parentsOf load) roots oid ∧ digits <+: oid.hex
  complete : maxReportedCandidates < all.length ∨
    ∀ oid, Reaches (parentsOf load) roots oid → digits <+: oid.hex → oid ∈ all

theorem Collected.outcome_of_done (hexp : Explored (parentsOf load) roots visited [])
    (hfound : Collected digits visited found) : Outcome load digits roots found where
  nodup := hfound.nodup
  sound oid hoid := by
    obtain ⟨hv, hd⟩ := (hfound.mem oid).mp hoid
    exact ⟨(hexp.all oid).mp hv, hd⟩
  complete := Or.inr fun oid hr hd => (hfound.mem oid).mpr ⟨(hexp.all oid).mpr hr, hd⟩

theorem Collected.outcome_of_break (hexp : Explored (parentsOf load) roots visited queue)
    (hfound : Collected digits visited found) (hmany : maxReportedCandidates < found.length) :
    Outcome load digits roots found where
  nodup := hfound.nodup
  sound oid hoid := by
    obtain ⟨hv, hd⟩ := (hfound.mem oid).mp hoid
    exact ⟨hexp.sound oid (Or.inl hv), hd⟩
  complete := Or.inl hmany

/-- Visiting a commit. -/
theorem Explored.visit_parents {oid : ObjectId} {rest parents : List ObjectId}
    (hexp : Explored (parentsOf load) roots visited (oid :: rest)) (hnew : oid ∉ visited)
    (hload : parentsOf load oid = parents) :
    Explored (parentsOf load) roots (oid :: visited)
      ((parents.filter (· ∉ oid :: visited)).reverse ++ rest) := by
  refine hexp.visit hnew (fun b hb => List.mem_append_right _ hb) ?_ ?_
  · intro b hb
    rw [hload] at hb
    by_cases hv : b ∈ oid :: visited
    · exact Or.inl hv
    · refine Or.inr (List.mem_append_left _ (List.mem_reverse.mpr (List.mem_filter.mpr ⟨hb, ?_⟩)))
      exact decide_eq_true hv
  · intro b hb
    rcases List.mem_append.mp hb with hb | hb
    · rw [hload]
      exact Or.inl (List.mem_of_mem_filter (List.mem_reverse.mp hb))
    · exact Or.inr hb

/-- The loop ends, within a budget that covers the reachable ids. -/
theorem scan_spec (hread : ∀ oid, Reaches (parentsOf load) roots oid → Readable load oid) {n : Nat}
    (hn : {oid | Reaches (parentsOf load) roots oid}.encard ≤ n) (budget : Nat)
    (hexp : Explored (parentsOf load) roots visited queue)
    (hfound : Collected digits visited found) (hbudget : visited.length + budget = n) :
    ∃ all, scan load digits budget visited queue found = .ok all ∧
      Outcome load digits roots all := by
  induction budget generalizing visited queue found with
  | zero =>
      rw [scan]
      cases hpop : popUnvisited visited queue with
      | none => exact ⟨found, rfl, hfound.outcome_of_done (popUnvisited_none hexp hpop)⟩
      | some x =>
          obtain ⟨hexp', hnew⟩ := popUnvisited_some hexp hpop
          have := hexp'.length_lt hnew hn
          omega
  | succ budget ih =>
      rw [scan]
      cases hpop : popUnvisited visited queue with
      | none => exact ⟨found, rfl, hfound.outcome_of_done (popUnvisited_none hexp hpop)⟩
      | some x =>
          obtain ⟨oid, rest⟩ := x
          obtain ⟨hexp', hnew⟩ := popUnvisited_some hexp hpop
          have hfound' := hfound.visit hnew
          have hbudget' : (oid :: visited).length + budget = n := by
            rw [List.length_cons]
            omega
          have hoid : Readable load oid := hread oid (hexp'.sound oid (Or.inr List.mem_cons_self))
          -- nothing comes from an id without parent links
          have hskip : parentsOf load oid = [] →
              Explored (parentsOf load) roots (oid :: visited) rest := fun hnone =>
            Explored.visit_parents hexp' hnew hnone
          dsimp only
          generalize (if digits.isPrefixOf oid.hex then found ++ [oid] else found) = found'
            at hfound' ⊢
          split
          · next hbreak =>
              have hmany := Explored.visit_parents hexp' hnew rfl
              exact ⟨_, rfl, hfound'.outcome_of_break hmany hbreak.2⟩
          · cases hload : load oid with
            | ok parents =>
                refine ih (Explored.visit_parents hexp' hnew ?_) hfound' hbudget'
                rw [parentsOf, hload]
            | error e =>
                have hnone : parentsOf load oid = [] := by rw [parentsOf, hload]
                unfold Readable at hoid
                rw [hload] at hoid
                split at hoid
                · next heq => cases heq
                · next heq => cases heq; exact ih (hskip hnone) hfound' hbudget'
                · next heq => cases heq; exact ih (hskip hnone) hfound' hbudget'
                · exact hoid.elim

/-! ## The verdict -/

theorem judge_spec {refs : List (Str × ObjectId)} {lower : Str} {all : List ObjectId}
    (h : Outcome load lower (refs.map (·.2)) all) :
    (∀ oid, judge digits all = .ok oid ↔
        {o | Reachable load refs o ∧ lower <+: o.hex} = {oid}) ∧
      (judge digits all = .error (.oidPrefixNotFound digits) ↔
        {o | Reachable load refs o ∧ lower <+: o.hex} = ∅) ∧
      ((∃ count candidates, judge digits all = .error (.ambiguousOid digits count candidates)) ↔
        {o | Reachable load refs o ∧ lower <+: o.hex}.Nontrivial) := by
  -- with few candidates, the list is the set
  have hset : all.length ≤ maxReportedCandidates →
      {o | Reachable load refs o ∧ lower <+: o.hex} = {o | o ∈ all} := by
    intro hfew
    ext o
    exact ⟨fun ho => (h.complete.resolve_left (by omega)) o ho.1 ho.2, fun ho => h.sound o ho⟩
  match all, h, hset with
  | [], h, hset =>
      rw [hset (Nat.zero_le _)]
      simp [judge, eq_comm]
  | [a], h, hset =>
      have hone : {o | o ∈ [a]} = {a} := by
        ext o
        simp
      rw [hset (by decide : 1 ≤ maxReportedCandidates), hone]
      simp [judge]
  | a :: b :: rest, h, hset =>
      have hab : a ≠ b := by
        rintro rfl
        simpa using h.nodup
      have hmany : {o | Reachable load refs o ∧ lower <+: o.hex}.Nontrivial :=
        ⟨a, h.sound a (by simp), b, h.sound b (by simp), hab⟩
      refine ⟨fun oid => iff_of_false (by simp [judge]) hmany.ne_singleton,
        iff_of_false (by simp [judge]) hmany.nonempty.ne_empty,
        iff_of_true ⟨_, _, rfl⟩ hmany⟩

/-- An abbreviated id resolves to the only matching id, if there is one.  For
every set of refs and every commit graph with at most `MAX_OID_RESOLVE_VISITED`
reachable ids, missing objects and non-commits included: the search returns an
id iff it is the only reachable one whose hex form starts with the digits, it
reports that there is none iff there is none, and an ambiguity iff there are
at least two. -/
theorem resolve_abbreviated_oid_unique (refs : List (Str × ObjectId))
    (load : ObjectId → Except (GitError ObjectId) (List ObjectId)) (digits : Str)
    (hread : ∀ oid, Reachable load refs oid → Readable load oid)
    (hsmall : {oid | Reachable load refs oid}.encard ≤ maxOidResolveVisited) :
    (∀ oid, resolveAbbreviatedOid (.ok refs) load digits = .ok oid ↔
        {o | Reachable load refs o ∧ digits.map Char.toLower <+: o.hex} = {oid}) ∧
      (resolveAbbreviatedOid (.ok refs) load digits = .error (.oidPrefixNotFound digits) ↔
        {o | Reachable load refs o ∧ digits.map Char.toLower <+: o.hex} = ∅) ∧
      ((∃ count candidates, resolveAbbreviatedOid (.ok refs) load digits =
          .error (.ambiguousOid digits count candidates)) ↔
        {o | Reachable load refs o ∧ digits.map Char.toLower <+: o.hex}.Nontrivial) := by
  have hstart : Explored (parentsOf load) (refs.map (·.2)) [] (refs.map (·.2)).reverse :=
    Explored.start fun a => List.mem_reverse
  have hnone : Collected (digits.map Char.toLower) [] [] := ⟨List.nodup_nil, by simp⟩
  obtain ⟨all, hscan, hall⟩ :=
    scan_spec hread hsmall maxOidResolveVisited hstart hnone (Nat.zero_add _)
  have hresult : resolveAbbreviatedOid (.ok refs) load digits = judge digits all := by
    show (scan _ _ _ _ _ _ >>= _) = _
    rw [hscan]
    rfl
  rw [hresult]
  exact judge_spec hall

end

/-! ### Two branches with a shared history and a missing object -/

namespace Sample

def oidOf (b : UInt8) : ObjectId := ⟨List.replicate 20 b, by simp⟩

def refs : List (Str × ObjectId) :=
  [("refs/heads/a".toList, oidOf 0xab), ("refs/heads/b".toList, oidOf 0xac)]

/-- `ab` and `ac` have the parent `ad`; the other parent of `ac` is gone. -/
def load (oid : ObjectId) : Except (GitError ObjectId) (List ObjectId) :=
  if oid = oidOf 0xab then .ok [oidOf 0xad]
  else if oid = oidOf 0xac then .ok [oidOf 0xad, oidOf 0xae]
  else if oid = oidOf 0xad then .ok []
  else .error (.objectStore (.notFound oid))

theorem reachable_mem {oid : ObjectId} (h : Reachable load refs oid) :
    oid ∈ [oidOf 0xab, oidOf 0xac, oidOf 0xad, oidOf 0xae] := by
  induction h with
  | root hroot =>
      revert hroot
      simp only [refs, List.map_cons, List.map_nil, List.mem_cons, List.not_mem_nil, or_false]
      rintro (rfl | rfl) <;> simp
  | step _ hb ih =>
      have hparents : ∀ a ∈ [oidOf 0xab, oidOf 0xac, oidOf 0xad, oidOf 0xae],
          ∀ b ∈ parentsOf load a, b ∈ [oidOf 0xab, oidOf 0xac, oidOf 0xad, oidOf 0xae] := by
        decide +kernel
      exact hparents _ ih _ hb

theorem readable {oid : ObjectId} : Readable load oid := by
  unfold Readable load
  split_ifs <;> trivial

theorem few : {oid | Reachable load refs oid}.encard ≤ maxOidResolveVisited := by
  have hsub : {oid | Reachable load refs oid} ⊆
      (([oidOf 0xab, oidOf 0xac, oidOf 0xad, oidOf 0xae].toFinset : Finset ObjectId) :
        Set ObjectId) := fun oid h => by simpa using reachable_mem h
  have hcard := Set.encard_le_encard hsub
  rw [Set.encard_coe_eq_coe_finsetCard] at hcard
  refine hcard.trans ?_
  have : ([oidOf 0xab, oidOf 0xac, oidOf 0xad, oidOf 0xae].toFinset).card ≤ 4 :=
    List.toFinset_card_le _
  exact_mod_cast this.trans (by decide)

/-- `ACAC` stands for the tip of the second branch and for nothing else. -/
theorem acac_resolves :
    {o | Reachable load refs o ∧ "ACAC".toList.map Char.toLower <+: o.hex} = {oidOf 0xac} :=
  ((resolve_abbreviated_oid_unique refs load "ACAC".toList (fun _ _ => readable) few).1 _).mp
    (by decide +kernel)

end Sample

end OpenViking.Git
