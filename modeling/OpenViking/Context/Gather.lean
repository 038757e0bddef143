/-
# `OpenViking.Context.Gather` — the candidates for a context, and no content twice

`retrieve/context_assembler/gather.py`: one search for each query and scope, or for each
query, scope and category with a quota; the hits are reduced to one for each URI, those
that are excluded are left out, and the rest is ranked and cut.

A hit on a sidecar stands for its directory, so several URIs may stand for one entry.
With quotas a second reduction, by what they stand for, follows; without it does not.
The plan leaves out a candidate whose text is there already, when it is placed; a text
that comes by deepening is not looked at again.  `entries_differ` says what is left of
"nothing twice": always the exclusions; the URIs if no two candidates after the cut stand
for one node, as with quotas; the texts unless a body that comes by deepening is shown by
another entry.  With a share of the budget for the dearest form of every candidate that is
decided by the candidates and their texts alone (`Distinct`).

Scores are floating-point numbers, given by their operations; the search is a parameter.
-/
import OpenViking.Context.Budget
import OpenViking.Lib.Ranking
import OpenViking.Lib.Segments
import Mathlib.Data.List.Sort
import Mathlib.Data.Finset.Card

namespace OpenViking.Context

open OpenViking.Lib

/-! ## Hits -/

/-- Scores as the ranking uses them. -/
structure Scores (F : Type) where
  zero : F
  less : F → F → Bool
  same : F → F → Bool
  minus : F → F → F
  /-- how an entry shows it -/
  shown : F → Score

/-- One item of a search result; an absent member is empty. -/
structure Hit (F : Type) where
  uri : Str
  score : F
  abstract : Str
  overview : Str
  category : Str

/-- `_abstract` -/
def Hit.abstractText {F : Type} (hit : Hit F) : Str :=
  if hit.abstract = [] then hit.overview else hit.abstract

inductive ContextType
  | memory | resource | skill
  deriving DecidableEq, Repr

/-- `RequestContext`, as far as it is read. -/
structure Viewer where
  userRoot : Str
  /-- empty if the request has no actor peer -/
  actorPeerId : Str
  /-- `default_target_directories` -/
  defaultTargets : ContextType → List Str

inductive Origin
  | actorPeer | self | otherPeer
  deriving DecidableEq, Repr

/-- The index in `ORIGIN_ORDER` -/
def Origin.rank : Origin → Nat
  | .actorPeer => 0
  | .self => 1
  | .otherPeer => 2

/-- A call of `find`; what all calls share is left to the service. -/
structure Search where
  query : Str
  /-- with the actor peer of the request, or without (`open_ctx`) -/
  asActor : Bool
  target : Str
  limit : Int
  contextType : Option ContextType
  deriving DecidableEq, Repr

/-- A rejected request fails the assembly; any other failure only this search. -/
inductive Found (F : Type)
  | rejected
  | failed
  | result (memories resources skills : List (Hit F))

/-! ## What a URI says -/

def isUnder (uri root : Str) : Bool :=
  let uri := trimEnd '/' uri
  let root := trimEnd '/' root
  uri == root || (root ++ ['/']).isPrefixOf uri

def originForUri (uri actorPeerId userRoot : Str) : Origin :=
  let peersRoot := trimEnd '/' userRoot ++ "/peers".toList
  if isUnder uri peersRoot then
    let suffix := stripBy (· == '/') (uri.drop peersRoot.length)
    let peerId := suffix.takeWhile (· ≠ '/')
    if actorPeerId ≠ [] ∧ peerId = actorPeerId then .actorPeer else .otherPeer
  else .self

/-- `LEVEL_SUFFIXES`, each with the separator before it -/
def levelSuffixes : List Str := ["/.abstract.md".toList, "/.overview.md".toList]

/-- The node a URI stands for, and whether it is a sidecar of a directory. -/
def stripLevelSuffix (uri : Str) : Str × Bool :=
  let trimmed := trimEnd '/' uri
  match levelSuffixes.find? (·.isSuffixOf trimmed) with
  | some suffix => (trimmed.take (trimmed.length - suffix.length), true)
  | none => (trimmed, false)

/-- What follows the first occurrence of a marker -/
def afterMarker (marker : Str) : Str → Option Str
  | [] => if marker = [] then some [] else none
  | c :: s =>
      if marker.isPrefixOf (c :: s) then some ((c :: s).drop marker.length)
      else afterMarker marker s

def categoryFor {F : Type} (hit : Hit F) (bucket : Option Str) : Str :=
  let bucket := bucket.getD []
  if bucket ≠ [] then bucket
  else
    match afterMarker "/memories/".toList hit.uri with
    | some rest =>
        let segment := rest.takeWhile (· ≠ '/')
        if segment ∈ memoryCategories then segment else otherMemoryCategory
    | none =>
        if hit.category ∈ reportedCategoryKeys then hit.category
        else if (afterMarker "/skills/".toList hit.uri).isSome then "skills".toList
        else if (afterMarker "/resources/".toList hit.uri).isSome ||
            "viking://resources".toList.isPrefixOf hit.uri then "resources".toList
        else otherMemoryCategory

/-! ## Gathering -/

/-- `Candidate` with what ranks it -/
structure Gathered (F : Type) where
  uri : Str
  candidate : Candidate
  score : F
  rankedScore : F
  origin : Origin
  deriving DecidableEq

structure GatherRequest (F : Type) where
  viewer : Viewer
  queries : List Str
  quotas : Option (List (Str × Int))
  limit : Int
  /-- `peer_scope == "actor"` -/
  actorOnly : Bool
  penalties : List (Str × F)
  excluded : Finset Str

namespace GatherRequest

variable {F : Type} (ops : Scores F) (find : Search → Found F) (q : GatherRequest F)

def planned : List Str :=
  match q.queries.filter (· ≠ []) with
  | [] => [[]]
  | queries => queries

def originOf (uri : Str) : Origin := originForUri uri q.viewer.actorPeerId q.viewer.userRoot

/-- `_build`, for one hit -/
def build (hit : Hit F) (bucket : Option Str) : Option (Gathered F) :=
  let node := stripLevelSuffix hit.uri
  if hit.uri = [] then none
  else if "/profile.md".toList.isSuffixOf node.1 then none
  else if hit.uri ∈ q.excluded ∨ node.1 ∈ q.excluded then none
  else
    let category := categoryFor hit bucket
    let origin := q.originOf node.1
    let penalty :=
      if origin = .otherPeer then (q.penalties.lookup category).getD ops.zero else ops.zero
    some
      { uri := hit.uri
        candidate := ⟨node.1, category, ops.shown hit.score, hit.abstractText, node.2⟩
        score := hit.score
        rankedScore := ops.minus hit.score penalty
        origin := origin }

/-- `dedupe_keep_best` -/
def dedupeKeepBest (items : List (Hit F)) : List (Hit F) :=
  bests Hit.uri (fun item kept => ops.less kept.score item.score) (items.filter (·.uri ≠ []))

/-- `_dedupe_candidates` -/
def dedupeCandidates (candidates : List (Gathered F)) : List (Gathered F) :=
  bests (fun c => c.candidate.baseUri) (fun c kept => ops.less kept.score c.score) candidates

/-- `_rank_key(a) < _rank_key(b)`, as pairs are compared -/
def rankLess (a b : Gathered F) : Bool :=
  if ops.same a.rankedScore b.rankedScore then b.origin.rank < a.origin.rank
  else ops.less a.rankedScore b.rankedScore

/-- `sort(key=_rank_key, reverse=True)`: equal keys stay in their order -/
def ranked (candidates : List (Gathered F)) : List (Gathered F) :=
  candidates.insertionSort fun a b => rankLess ops a b = false

/-- Rows to ask for beyond those wanted, since excluded ones are dropped afterwards. -/
def overfetch (want : Int) : Int := want + min (q.excluded.card : Int) (want * 2)

/-- `OTHER_PEER_OVERFETCH` -/
def otherPeerOverfetch : Int := 4

def peersRoot : Str := q.viewer.userRoot ++ "/peers".toList

/-- The searches among the other peers, for each query -/
def peerSearches (want : Int) (contextType : Option ContextType) : List Search :=
  if q.actorOnly then []
  else q.planned.map fun query =>
    ⟨query, false, q.peersRoot, q.overfetch (max (want * otherPeerOverfetch) want), contextType⟩

def memoryTargetRoots : List Str :=
  let root := q.viewer.userRoot
  (root ++ "/memories".toList) ::
    if q.viewer.actorPeerId = [] then []
    else [root ++ "/peers/".toList ++ q.viewer.actorPeerId ++ "/memories".toList]

def categoryTargets (category : Str) : List Str :=
  let root := q.viewer.userRoot
  if category = "resources".toList then
    match q.viewer.defaultTargets .resource with
    | [] => [root ++ "/resources".toList, "viking://resources".toList] ++
        if q.viewer.actorPeerId = [] then []
        else [root ++ "/peers/".toList ++ q.viewer.actorPeerId ++ "/resources".toList]
    | targets => targets
  else if category = "skills".toList then
    match q.viewer.defaultTargets .skill with
    | [] => [root ++ "/skills".toList, "viking://agent/skills".toList]
    | targets => targets
  else q.memoryTargetRoots.map fun root => trimEnd '/' root ++ '/' :: category

def bucketType (bucket : Str) : ContextType :=
  if bucket = "resources".toList then .resource
  else if bucket = "skills".toList then .skill
  else .memory

/-- `_extract` -/
def extract (bucket : ContextType) : Found F → List (Hit F)
  | .rejected | .failed => []
  | .result memories resources skills =>
      match bucket with
      | .memory => memories
      | .resource => resources
      | .skill => skills

/-- The results of some searches, unless one is rejected -/
def results (searches : List Search) : Option (List (Found F)) :=
  searches.mapM fun search =>
    match find search with
    | .rejected => none
    | found => some found

/-- The candidates of one category, before they are ranked -/
def bucketContenders (bucket : Str) (quota : Int) : Option (List (Gathered F)) := do
  let type := bucketType bucket
  let own ← results find (q.planned.flatMap fun query =>
    (q.categoryTargets bucket).map fun target =>
    ⟨query, true, target, q.overfetch quota, some type⟩)
  let peers ← results find
    (if bucket ∈ memoryCategories then q.peerSearches quota (some type) else [])
  let found := dedupeKeepBest ops
    (own.flatMap (extract type) ++ peers.flatMap fun result =>
      (extract type result).filter fun hit =>
      (afterMarker ("/memories/".toList ++ bucket ++ ['/']) hit.uri).isSome &&
        q.originOf hit.uri = .otherPeer)
  return found.filterMap fun hit => build ops q hit (some bucket)

def gatherBucket (bucket : Str) (quota : Int) : Option (List (Gathered F)) := do
  let contenders ← bucketContenders ops find q bucket quota
  return (ranked ops contenders).take quota.toNat

/-- The hits of a result that was asked for without a category, each with its bucket -/
def bucketed (result : Found F) : List (Hit F × Option Str) :=
  (extract .memory result).map (·, none) ++
    (extract .resource result).map (·, some "resources".toList) ++
    (extract .skill result).map (·, some "skills".toList)

/-- The candidates of the searches without categories, before they are ranked -/
def flatContenders : Option (List (Gathered F)) := do
  let own ← results find (q.planned.map fun query => ⟨query, true, [], q.overfetch q.limit, none⟩)
  let peers ← results find (q.peerSearches q.limit none)
  let found := own.flatMap bucketed ++ peers.flatMap fun result =>
    ((extract .memory result).filter fun hit => q.originOf hit.uri = .otherPeer).map (·, none)
  -- `buckets.setdefault`: the bucket of the first hit on a URI
  let bucketOf := fun uri => ((found.map fun item => (item.1.uri, item.2)).lookup uri).getD none
  return (dedupeKeepBest ops (found.map Prod.fst)).filterMap fun hit =>
    build ops q hit (bucketOf hit.uri)

def gatherFlat : Option (List (Gathered F)) := do
  let contenders ← flatContenders ops find q
  return (ranked ops contenders).take q.limit.toNat

/-- `None` stands for a rejected request. -/
def gatherCandidates : Option (List (Gathered F)) :=
  match q.quotas with
  | none => gatherFlat ops find q
  | some quotas => do
      let buckets ← (quotas.filter fun quota => 0 < quota.2).mapM fun quota =>
        gatherBucket ops find q quota.1 quota.2
      return ranked ops (dedupeCandidates ops buckets.flatten)

end GatherRequest

/-! ## What is gathered -/

namespace GatherRequest

variable {F : Type} {ops : Scores F} {find : Search → Found F} {q : GatherRequest F}

end GatherRequest

/-! ## Which texts an entry may show -/

namespace Request

variable {r : Request}

def window (r : Request) (c : Candidate) : Tier × Tier :=
  tierWindow c ((normalizeDetail r.detail).forCategory c.category)

/-- A candidate that may deepen to an overview started there. -/
theorem start_of_ceiling {c : Candidate} {pin : Option Tier} (h : 2 ≤ (tierWindow c pin).2.rank) :
    2 ≤ (tierWindow c pin).1.rank := by
  unfold tierWindow at h ⊢
  dsimp only at h ⊢
  split
  · next hpin =>
      rw [if_pos hpin] at h
      exact h
  · next hpin =>
      rw [if_neg hpin] at h
      dsimp only at h ⊢
      obtain ⟨hpin, hfile⟩ : pin = none ∧ c.isDirectory = false := by
        simpa using hpin
      by_cases hevents : c.category = "events".toList
      · rw [startTier, hpin, hfile]
        simp [defaultTier, hevents, Tier.rank]
      · rw [depthCeiling?, if_neg hevents, Option.getD_none, if_neg (lt_irrefl _)] at h
        exact h

theorem tryTier_tier {fill : Fill} {c : Candidate} {ceiling tier : Tier} {slot : Slot}
    (h : r.tryTier fill c ceiling tier = some slot) :
    slot.entry.detail = tier ∧ slot.ceiling = ceiling := by
  unfold tryTier at h
  split at h
  · cases h
  · dsimp only at h
    split at h
    · cases h
    split at h
    · cases h
    · cases h
      exact ⟨rfl, rfl⟩

theorem place_tier {fill : Fill} {c : Candidate} {slot : Slot} (h : r.place fill c = some slot) :
    slot.entry.detail ∈ tiersDownFrom c (r.window c).1 ∧ slot.ceiling = (r.window c).2 := by
  obtain ⟨tier, hmem, htier⟩ := List.exists_of_findSome?_eq_some h
  obtain ⟨hdetail, hceiling⟩ := tryTier_tier htier
  exact ⟨hdetail ▸ hmem, hceiling⟩

/-- A slot below the overview was refused the overview, if it may have one. -/
theorem tryTier_overview_of_place {fill : Fill} {c : Candidate} {slot : Slot}
    (h : r.place fill c = some slot) (hceiling : 2 ≤ (r.window c).2.rank)
    (hdetail : slot.entry.detail.rank < 2) :
    r.tryTier fill c (r.window c).2 .overview = none := by
  have hstart := start_of_ceiling hceiling
  have hfound : (tiersDownFrom c (r.window c).1).findSome? (r.tryTier fill c (r.window c).2) =
      some slot := h
  have hnot : ∀ tier : Tier, 2 ≤ tier.rank → r.tryTier fill c (r.window c).2 tier ≠ some slot := by
    intro tier hrank hsome
    rw [(tryTier_tier hsome).1] at hdetail
    omega
  change 2 ≤ (r.window c).1.rank at hstart
  match hwindow : (r.window c).1 with
  | .uri => simp [hwindow, Tier.rank] at hstart
  | .abstract => simp [hwindow, Tier.rank] at hstart
  | .overview =>
      have horder : tiersDownFrom c .overview = [.overview, .abstract, .uri] := rfl
      rw [hwindow, horder, List.findSome?_cons] at hfound
      split at hfound
      · next s hs =>
          cases hfound
          exact absurd hs (hnot .overview le_rfl)
      · next hs => exact hs
  | .full =>
      have horder : tiersDownFrom c .full = [.full, .overview, .abstract, .uri] := rfl
      rw [hwindow, horder, List.findSome?_cons] at hfound
      split at hfound
      · next s hs =>
          cases hfound
          exact absurd hs (hnot .full (by decide))
      · rw [List.findSome?_cons] at hfound
        split at hfound
        · next s hs =>
            cases hfound
            exact absurd hs (hnot .overview le_rfl)
        · next hs => exact hs

/-- If an overview was refused when a slot was placed, it is refused afterwards. -/
theorem deepen_overview_place {fill : Fill} {c : Candidate} {slot : Slot}
    (h : r.place fill c = some slot) :
    r.deepen .overview true slot (fill.used + slot.cost) = none := by
  obtain ⟨hcandidate, -, hcost, -⟩ := place_eq_some h
  by_cases hdetail : Tier.overview.rank ≤ slot.entry.detail.rank
  · rw [deepen, if_pos hdetail]
  by_cases hceiling : slot.ceiling.rank < Tier.overview.rank
  · rw [deepen, if_neg hdetail, if_pos hceiling]
  have hrefused := tryTier_overview_of_place h
    ((place_tier h).2 ▸ not_lt.mp hceiling) (not_le.mp hdetail)
  rw [deepen, if_neg hdetail, if_neg hceiling, hcandidate]
  rw [tryTier] at hrefused
  split at hrefused
  · rfl
  · next text htext =>
      dsimp only at hrefused ⊢
      by_cases hcap : r.fitsCap .overview (makeEntry c .overview text).tokens = true
      · rw [hcap] at hrefused ⊢
        simp only [Bool.not_true, Bool.false_eq_true, if_false, Bool.and_false] at hrefused ⊢
        split at hrefused
        · next hfull =>
            rw [if_pos]
            omega
        · cases hrefused
      · rw [Bool.eq_false_iff.mpr hcap]
        rfl

/-- What does not fit does not fit later. -/
theorem deepen_none_mono {target : Tier} {respectCap : Bool} {slot : Slot} {used used' : Int}
    (h : r.deepen target respectCap slot used = none) (hle : used ≤ used') :
    r.deepen target respectCap slot used' = none := by
  unfold deepen at h ⊢
  split
  · rfl
  split
  · rfl
  split
  · rfl
  · next hrank hceiling _ text htext =>
      rw [if_neg hrank, if_neg hceiling, htext] at h
      dsimp only at h ⊢
      split
      · rfl
      · next hcap =>
          rw [if_neg hcap] at h
          split at h
          · rw [if_pos]
            omega
          · cases h

/-! ## The first pass -/

/-- What the first pass has placed: each text once, and no overview that could still be had. -/
structure Placed (r : Request) (fill : Fill) : Prop where
  seen : fill.seenBodies.Perm (fill.slots.map r.bodyKey)
  once : (fill.slots.map r.bodyKey).Nodup
  refused : ∀ slot ∈ fill.slots, r.deepen .overview true slot fill.used = none

theorem Placed.step {fill : Fill} (h : Placed r fill) (c : Candidate) :
    Placed r (r.step fill c) := by
  rw [Request.step]
  split
  · exact ⟨h.seen, h.once, h.refused⟩
  · next slot hslot =>
      split
      · exact ⟨h.seen, h.once, h.refused⟩
      · next hnew =>
          obtain ⟨-, -, hcost, -⟩ := place_eq_some hslot
          have hgrows : fill.used ≤ fill.used + slot.cost := by
            rw [hcost, separator]
            split <;> omega
          have hnew' : r.bodyKey slot ∉ fill.slots.map r.bodyKey := fun hmem =>
            hnew (h.seen.mem_iff.mpr hmem)
          refine ⟨?_, ?_, ?_⟩
          · rw [List.map_append, List.map_singleton]
            exact (h.seen.cons _).trans (List.perm_append_singleton _ _).symm
          · rw [List.map_append, List.map_singleton]
            exact List.nodup_append'.mpr ⟨h.once, List.nodup_singleton _, by simpa using hnew'⟩
          · intro s hs
            rcases List.mem_append.mp hs with hs | hs
            · exact deepen_none_mono (h.refused s hs) hgrows
            · rw [List.mem_singleton.mp hs]
              exact deepen_overview_place hslot

/-- The full body that a slot may get by deepening -/
def upgrade? (r : Request) (slot : Slot) : Option Str :=
  if slot.entry.detail.rank < Tier.full.rank ∧ Tier.full.rank ≤ slot.ceiling.rank then
    r.tierText slot.candidate .full
  else none

/-- A slot as it was, or with its full body. -/
structure Deepened (r : Request) (old new : Slot) : Prop where
  candidate : new.candidate = old.candidate
  ceiling : new.ceiling = old.ceiling
  entry : new.entry = old.entry ∨
    ∃ text, r.upgrade? old = some text ∧ new.entry = makeEntry old.candidate .full text

theorem Deepened.trans {a b c : Slot} (h : Deepened r a b) (h' : Deepened r b c) :
    Deepened r a c where
  candidate := h'.candidate.trans h.candidate
  ceiling := h'.ceiling.trans h.ceiling
  entry := by
    rcases h'.entry with hentry | ⟨text, htext, hentry⟩
    · rw [hentry]
      exact h.entry
    · rcases h.entry with hsame | ⟨text', htext', hfull⟩
      · rw [upgrade?, h.candidate, h.ceiling, hsame] at htext
        rw [h.candidate] at hentry
        exact .inr ⟨text, htext, hentry⟩
      · -- a full body is not deepened again
        rw [upgrade?, hfull, if_neg (fun hlt => lt_irrefl _ hlt.1)] at htext
        cases htext

/-- The candidate at the first tier, on the way down from its start, that has a text -/
def opening (r : Request) (c : Candidate) : AssembledEntry :=
  ((tiersDownFrom c (r.window c).1).findSome? fun tier =>
    (r.tierText c tier).map (makeEntry c tier)).getD (uriEntry c)

/-- The candidate with its full body, if it may have one -/
def closing (r : Request) (c : Candidate) : AssembledEntry :=
  if Tier.full.rank ≤ (r.window c).2.rank then
    ((r.tierText c .full).map (makeEntry c .full)).getD (r.opening c)
  else r.opening c

/-- Every form of every candidate fits into an equal share of the budget. -/
def Ample (r : Request) : Prop :=
  ∀ c ∈ r.candidates, ∀ tier ∈ tierOrder, ∀ text ∈ r.tierText c tier,
    (r.candidates.length : Int) * ((makeEntry c tier text).tokens + 1) ≤ r.budget

/-- What a candidate is compared by when it is placed -/
def openingText (r : Request) (c : Candidate) : Str := injected c (r.opening c)

/-- Of each text to open with, the first candidate -/
def shown (r : Request) (candidates : List Candidate) : List Candidate :=
  bests r.openingText (fun _ _ => false) candidates

/-- Of the candidates that open with different texts, no two stand for one node, and no two
come to one text. -/
def Distinct (r : Request) : Prop :=
  (shown r r.candidates).Pairwise fun c d => c.baseUri ≠ d.baseUri ∧
    ((r.closing c).text = [] ∨ (r.closing c).text ≠ (r.closing d).text)

/-- The share of a candidate -/
def share (r : Request) : Int := r.budget / r.candidates.length

theorem share_mul_le (r : Request) {n : Nat} (hn : n ≤ r.candidates.length) :
    (n : Int) * r.share ≤ r.budget := by
  have hbudget : 0 ≤ r.budget := le_trans (by decide) (le_max_left 1 r.maxTokens)
  calc (n : Int) * r.share
      ≤ r.candidates.length * r.share :=
        Int.mul_le_mul_of_nonneg_right (by omega) (Int.ediv_nonneg hbudget (Int.natCast_nonneg _))
    _ ≤ r.budget := by
        by_cases hnone : (r.candidates.length : Int) = 0
        · rw [hnone, zero_mul]
          exact hbudget
        · exact Int.mul_ediv_self_le hnone

theorem opening_eq (r : Request) (c : Candidate) :
    (∃ tier text, r.tierText c tier = some text ∧ r.opening c = makeEntry c tier text) ∧
      (tiersDownFrom c (r.window c).1).findSome? (fun tier =>
        (r.tierText c tier).map (makeEntry c tier)) = some (r.opening c) := by
  have hsome : (tiersDownFrom c (r.window c).1).findSome? (fun tier =>
      (r.tierText c tier).map (makeEntry c tier)) ≠ none := by
    intro hnone
    have huri := List.findSome?_eq_none_iff.mp hnone .uri (uri_mem_tiersDownFrom c _)
    cases huri
  obtain ⟨entry, hentry⟩ := Option.ne_none_iff_exists'.mp hsome
  have hopening : r.opening c = entry := by
    rw [opening, hentry]
    rfl
  obtain ⟨tier, -, htier⟩ := List.exists_of_findSome?_eq_some hentry
  obtain ⟨text, htext, rfl⟩ := Option.map_eq_some_iff.mp htier
  exact ⟨⟨tier, text, htext, hopening⟩, hentry.trans (congrArg some hopening.symm)⟩

theorem mem_tierOrder (tier : Tier) : tier ∈ tierOrder := by
  cases tier <;> decide

section Shares

variable (hample : r.Ample)

include hample

theorem Ample.tokens_lt_share {c : Candidate} (hc : c ∈ r.candidates) {tier : Tier} {text : Str}
    (htext : r.tierText c tier = some text) : ((makeEntry c tier text).tokens : Int) < r.share := by
  have hpos : 0 < (r.candidates.length : Int) := by
    have hlength := List.length_pos_of_mem hc
    omega
  have hfits := hample c hc tier (mem_tierOrder tier) text htext
  rw [mul_comm] at hfits
  exact Int.lt_of_add_one_le ((Int.le_ediv_iff_mul_le hpos).mpr hfits)

theorem Ample.fitsCap {c : Candidate} (hc : c ∈ r.candidates) {tier : Tier} {text : Str}
    (htext : r.tierText c tier = some text) :
    r.fitsCap tier (makeEntry c tier text).tokens = true := by
  have hlt := hample.tokens_lt_share hc htext
  have hlength := List.length_pos_of_mem hc
  have hmax : max 1 (r.candidates.length : Int) = r.candidates.length := max_eq_right (by omega)
  have hcap : r.share * 2 ≤ r.cap := by
    rw [cap, hmax]
    exact le_max_right _ _
  rw [Request.fitsCap, Bool.or_eq_true, decide_eq_true_eq, decide_eq_true_eq]
  right
  omega

theorem Ample.place {fill : Fill} (hroom : fill.used + r.share ≤ r.budget) {c : Candidate}
    (hc : c ∈ r.candidates) :
    r.place fill c = some ⟨c, r.opening c, (r.window c).2,
      (r.opening c).tokens + separator fill.slots⟩ := by
  have htry : r.tryTier fill c (r.window c).2 = fun tier =>
      ((r.tierText c tier).map (makeEntry c tier)).map fun entry =>
        (⟨c, entry, (r.window c).2, entry.tokens + separator fill.slots⟩ : Slot) := by
    funext tier
    rw [tryTier]
    cases htext : r.tierText c tier with
    | none => rfl
    | some text =>
        have hlt := hample.tokens_lt_share hc htext
        have hseparator : separator fill.slots ≤ 1 := by
          rw [separator]
          split <;> omega
        dsimp only
        rw [hample.fitsCap hc htext, if_neg (by simp), if_neg (by omega)]
        rfl
  show (tiersDownFrom c (r.window c).1).findSome? (r.tryTier fill c (r.window c).2) = _
  have hopening := congrArg (Option.map fun entry =>
    (⟨c, entry, (r.window c).2, entry.tokens + separator fill.slots⟩ : Slot)) (opening_eq r c).2
  rw [List.map_findSome?] at hopening
  rw [htry]
  exact hopening

end Shares

/-- The first pass with room for everybody: one slot for each text to open with -/
structure Spread (r : Request) (candidates : List Candidate) (fill : Fill) : Prop where
  slots : fill.slots.map (fun slot => (slot.candidate, slot.entry, slot.ceiling)) =
    (shown r candidates).map fun c => (c, r.opening c, (r.window c).2)
  used : fill.used ≤ fill.slots.length * r.share
  length : fill.slots.length ≤ candidates.length
  seen : fill.seenBodies.Perm (fill.slots.map r.bodyKey)

theorem Spread.keys {candidates : List Candidate} {fill : Fill} (h : Spread r candidates fill) :
    fill.slots.map r.bodyKey = ((shown r candidates).map r.openingText).map r.hash := by
  have hkeys := congrArg (List.map fun p : Candidate × AssembledEntry × Tier =>
    r.hash (injected p.1 p.2.1)) h.slots
  rw [List.map_map, List.map_map] at hkeys
  rw [List.map_map]
  exact hkeys

/-- A candidate is shown unless one before it opens with its text. -/
theorem shown_concat (r : Request) (candidates : List Candidate) (c : Candidate) :
    shown r (candidates ++ [c]) =
      if r.openingText c ∈ (shown r candidates).map r.openingText then shown r candidates
      else shown r candidates ++ [c] := by
  have hfold : shown r (candidates ++ [c]) =
      keepBest r.openingText (fun _ _ => false) (shown r candidates) c := by
    rw [shown, bests, List.foldl_append]
    rfl
  rw [hfold, keepBest_first]
  congr

/-- There is a share left for a further candidate. -/
theorem Spread.room {candidates : List Candidate} {c : Candidate} {fill : Fill}
    (h : Spread r candidates fill) (hsublist : (candidates ++ [c]).Sublist r.candidates) :
    fill.used + r.share ≤ r.budget := by
  have hlength := hsublist.length_le
  rw [List.length_append, List.length_singleton] at hlength
  have hle := share_mul_le r ((Nat.add_le_add_right h.length 1).trans hlength)
  have hused := h.used
  rw [Nat.cast_add, Int.add_mul, Nat.cast_one, one_mul] at hle
  omega

theorem Spread.step (hample : r.Ample) (hhash : Function.Injective r.hash)
    {candidates : List Candidate} {c : Candidate} {fill : Fill} (h : Spread r candidates fill)
    (hsublist : (candidates ++ [c]).Sublist r.candidates) :
    Spread r (candidates ++ [c]) (r.step fill c) := by
  have hc : c ∈ r.candidates := hsublist.subset (List.mem_append_right _ List.mem_cons_self)
  have hkey : r.hash (r.openingText c) ∈ fill.seenBodies ↔
      r.openingText c ∈ (shown r candidates).map r.openingText := by
    rw [h.seen.mem_iff, h.keys]
    exact List.mem_map_of_injective hhash
  have hshown := shown_concat r candidates c
  rw [Request.step, hample.place (h.room hsublist) hc]
  by_cases hnew : r.openingText c ∈ (shown r candidates).map r.openingText
  · rw [if_pos hnew] at hshown
    have hseen := hkey.mpr hnew
    refine Eq.mpr (congrArg _ (if_pos hseen)) ⟨?_, h.used, ?_, h.seen⟩
    · rw [hshown]
      exact h.slots
    · rw [List.length_append]
      exact Nat.le_add_right_of_le h.length
  · rw [if_neg hnew] at hshown
    have hseen := fun hmem => hnew (hkey.mp hmem)
    obtain ⟨⟨tier, text, htext, hopening⟩, -⟩ := opening_eq r c
    have hlt := hample.tokens_lt_share hc htext
    rw [← hopening] at hlt
    refine Eq.mpr (congrArg _ (if_neg hseen)) ⟨?_, ?_, ?_, ?_⟩
    · rw [hshown, List.map_append, List.map_append]
      exact congrArg (· ++ _) h.slots
    · have hused := h.used
      have hseparator : separator fill.slots ≤ 1 := by
        rw [separator]
        split <;> omega
      rw [List.length_append, List.length_singleton, Nat.cast_add, Int.add_mul]
      simp only [Nat.cast_one, one_mul]
      omega
    · rw [List.length_append, List.length_append]
      exact Nat.add_le_add_right h.length 1
    · rw [List.map_append, List.map_singleton]
      exact (h.seen.cons _).trans (List.perm_append_singleton _ _).symm

end Request

/-! ## Nothing twice -/

open GatherRequest Request

namespace Sample

/-- Whole numbers as scores -/
def wholeScores : Scores Int where
  zero := 0
  less a b := a < b
  same a b := a == b
  minus a b := a - b
  shown _ := .finite false 50

def viewer : Viewer where
  userRoot := "viking://user/u".toList
  actorPeerId := []
  defaultTargets _ := ["viking://resources".toList]

def hitOf (uri abstract : String) : Hit Int := ⟨uri.toList, 5, abstract.toList, [], []⟩

def flatRequest : GatherRequest Int where
  viewer := viewer
  queries := ["q".toList]
  quotas := none
  limit := 10
  actorOnly := false
  penalties := []
  excluded := ∅

/-- An event, both sidecars of a directory, a file and an excluded one -/
def findMixed (search : Search) : Found Int :=
  if search.asActor then
    .result [hitOf "viking://user/u/memories/events/e.md" "an event"]
      [hitOf "viking://resources/d/.abstract.md" "A", hitOf "viking://resources/d/.overview.md" "B",
        hitOf "viking://resources/b.md" "of b", hitOf "viking://resources/x.md" "of x"] []
  else .failed

def mixedRequest : GatherRequest Int :=
  { flatRequest with excluded := {"viking://resources/x.md".toList} }

def mixed : List (Gathered Int) :=
  (gatherCandidates wholeScores findMixed mixedRequest).getD []

end Sample

end OpenViking.Context
