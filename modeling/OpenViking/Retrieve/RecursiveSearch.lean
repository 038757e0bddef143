/-
# `OpenViking.Retrieve.RecursiveSearch` — the best-first search of the retriever

`HierarchicalRetriever._recursive_search`: a priority queue of directories, expanded in
batches; the score of a child is mixed with that of its directory; every URI is kept with its
best score; the search stops when the queue is empty or when two counters say that nothing
changes any more.

The vector store is any function from a URI to a list of records, the reranker any function,
scores are rationals.  A heap is an ordered list here, since only the order in which it gives
its entries matters.

    `recursiveSearch_sound_iff`   the search ends, searches a directory once, and returns the
                                  best candidates with their best scores, whatever the store
                                  and the starting points are, exactly if of the initial
                                  candidates of a URI that count the last one is the best

Otherwise a worse candidate replaces a better one: the initial candidates are stored as they
come, unlike the children.
-/
import OpenViking.Lib.Dict
import OpenViking.Lib.Segments
import Mathlib.Algebra.Order.Field.Rat
import Mathlib.Data.List.Sort
import Mathlib.Data.List.Dedup
import Mathlib.Data.List.Induction

namespace OpenViking.Retrieve

open OpenViking.Lib

/-- A record of the vector store, as far as the search reads it -/
structure Record (α : Type) where
  uri : Str
  level : Option Int
  score : ℚ
  «abstract» : Str
  rest : α
  deriving DecidableEq

/-- What a candidate has to satisfy -/
structure Filter where
  threshold : ℚ
  scoreGte : Bool
  level : Option (List Int)

namespace Filter

variable {α : Type} (filter : Filter)

/-- `_passes_threshold` -/
def passes (score : ℚ) : Bool :=
  if filter.scoreGte then filter.threshold ≤ score else filter.threshold < score

/-- A record without a level is a file. -/
def Matches (r : Record α) : Bool :=
  match filter.level with
  | none => true
  | some levels => r.level.getD 2 ∈ levels

/-- The record has the level and, at its own score, passes. -/
def Counts (r : Record α) : Bool := filter.Matches r && filter.passes r.score

end Filter

/-- What the search is given -/
structure Search (α : Type) extends Filter where
  limit : Nat
  /-- `score_propagation_alpha` -/
  alpha : ℚ
  /-- `MAX_PARALLEL_CHILD_SEARCHES` -/
  maxParallel : Nat
  /-- `MAX_CONVERGENCE_ROUNDS` -/
  maxRounds : Nat
  /-- `search_children_in_tenant` -/
  children : Str → List (Record α)
  /-- `rerank_batch`, if there is a client and the mode asks for it; it may raise, and give
  scores that are no numbers -/
  rerankBatch : Option (List Str → Option (List (Option ℚ)))

/-- A candidate with its final score -/
abbrev Scored (α : Type) := Record α × ℚ

/-- The initial candidates are stored one after the other. -/
def Filter.addInitial {α : Type} (filter : Filter) (collected : Dict Str (Scored α))
    (r : Record α) : Dict Str (Scored α) :=
  if r.uri = [] then collected
  else if filter.Matches r then
    if filter.passes r.score then collected.set r.uri (r, r.score) else collected
  else collected

def Filter.initialPool {α : Type} (filter : Filter) (initial : List (Record α)) :
    Dict Str (Scored α) :=
  initial.foldl filter.addInitial Dict.empty

namespace Search

variable {α : Type} (search : Search α)

/-! ## Reranking -/

/-- The reranker's scores at the places of the documents it got -/
def placeScores (fallback : List ℚ) (places : List (Str × Nat)) (scores : List (Option ℚ)) :
    List ℚ :=
  (scores.zip places).foldl
    (fun normalized item => normalized.set item.2.2 (item.1.getD (fallback.getD item.2.2 0)))
    fallback

def rerankScores (documents : List Str) (fallback : List ℚ) : List ℚ :=
  match search.rerankBatch with
  | none => fallback
  | some client =>
      let places := documents.zipIdx.filter fun document => strip document.1 ≠ []
      if places = [] then fallback
      else
        match client (places.map Prod.fst) with
        | none => fallback
        | some scores =>
            if scores.length ≠ places.length then fallback else placeScores fallback places scores

def queryScores (results : List (Record α)) : List ℚ :=
  search.rerankScores (results.map Record.abstract) (results.map Record.score)

/-! ## The state -/

structure State (α : Type) where
  collected : Dict Str (Scored α)
  /-- The priority queue: negated scores, least first -/
  queue : List (ℚ × Str)
  visited : List Str
  /-- The URIs whose children were searched, and the children that came back -/
  searched : List Str
  seen : List (Scored α)
  prevTopk : List Str
  prevPoolSize : Nat
  convergenceRounds : Nat
  stagnantRounds : Nat

/-- The order of heap entries -/
def before (a b : ℚ × Str) : Prop := a.1 < b.1 ∨ a.1 = b.1 ∧ ¬b.2 < a.2

instance : DecidableRel before := fun a b =>
  inferInstanceAs (Decidable (a.1 < b.1 ∨ a.1 = b.1 ∧ ¬b.2 < a.2))

def push (queue : List (ℚ × Str)) (entry : ℚ × Str) : List (ℚ × Str) :=
  queue.orderedInsert before entry

def start (initial : List (Record α)) (startingPoints : List (Str × ℚ)) : State α where
  collected := search.initialPool initial
  queue := startingPoints.foldl (fun queue point => push queue (-point.2, point.1)) []
  visited := []
  searched := []
  seen := []
  prevTopk := []
  prevPoolSize := 0
  convergenceRounds := 0
  stagnantRounds := 0

/-! ## One round -/

/-- Take up to `n` directories that were not visited from the queue. -/
def fillBatch : List (ℚ × Str) → Nat → List Str → List (Str × ℚ) × List (ℚ × Str) × List Str
  | [], _, visited => ([], [], visited)
  | entry :: queue, 0, visited => ([], entry :: queue, visited)
  | (negScore, uri) :: queue, n + 1, visited =>
      if uri ∈ visited then fillBatch queue (n + 1) visited
      else
        let (batch, rest) := fillBatch queue n (visited ++ [uri])
        ((uri, -negScore) :: batch, rest)

/-- The score of a child, mixed with that of its directory unless that is zero -/
def finalScore (current score : ℚ) : ℚ :=
  if current ≠ 0 then search.alpha * score + (1 - search.alpha) * current else score

/-- Keep the better of two candidates. -/
def collect (collected : Dict Str (Scored α)) (r : Record α) (score : ℚ) : Dict Str (Scored α) :=
  match collected.get r.uri with
  | none => collected.set r.uri (r, score)
  | some previous => if previous.2 < score then collected.set r.uri (r, score) else collected

def addChild (current : ℚ) (s : State α) (item : Record α × ℚ) : State α :=
  let final := search.finalScore current item.2
  let s := { s with seen := s.seen ++ [(item.1, final)] }
  if search.passes final then
    let s :=
      if search.Matches item.1 then { s with collected := collect s.collected item.1 final } else s
    if item.1.uri ∉ s.visited ∧ item.1.level.getD 2 ≠ 2 then
      { s with queue := push s.queue (-final, item.1.uri) }
    else s
  else s

/-- The children of one directory -/
def expand (s : State α) (entry : Str × ℚ) : State α :=
  let results := search.children entry.1
  (results.zip (search.queryScores results)).foldl (search.addChild entry.2)
    { s with searched := s.searched ++ [entry.1] }

/-- Best scores first; equal scores stay in their order. -/
def ranked (collected : Dict Str (Scored α)) : List (Scored α) :=
  collected.values.insertionSort fun a b => b.2 ≤ a.2

/-- The convergence check: the new counters, and whether the search stops -/
def converge (s : State α) : State α × Bool :=
  let topk := ((ranked s.collected).take search.limit).map fun c => c.1.uri
  let poolSize := s.collected.items.length
  if (∀ uri ∈ topk, uri ∈ s.prevTopk) ∧ (∀ uri ∈ s.prevTopk, uri ∈ topk) ∧
      search.limit ≤ topk.dedup.length then
    ({ s with convergenceRounds := s.convergenceRounds + 1 },
      search.maxRounds ≤ s.convergenceRounds + 1)
  else if poolSize = s.prevPoolSize then
    ({ s with stagnantRounds := s.stagnantRounds + 1 }, search.maxRounds ≤ s.stagnantRounds + 1)
  else
    ({ s with convergenceRounds := 0, stagnantRounds := 0, prevTopk := topk,
              prevPoolSize := poolSize }, false)

/-- One turn of the loop, and whether the search stops -/
def round (s : State α) : State α × Bool :=
  let (batch, queue, visited) := fillBatch s.queue (max 1 search.maxParallel) s.visited
  let s := { s with queue := queue, visited := visited }
  if batch = [] then (s, false) else search.converge (batch.foldl search.expand s)

/-- `none` when the fuel is used up -/
def loop : Nat → State α → Option (State α)
  | 0, _ => none
  | fuel + 1, s =>
      if s.queue = [] then some s
      else
        match search.round s with
        | (s, true) => some s
        | (s, false) => loop fuel s

/-- The last state and the candidates that are returned -/
def recursiveSearch (fuel : Nat) (initial : List (Record α)) (startingPoints : List (Str × ℚ)) :
    Option (State α × List (Scored α)) :=
  (search.loop fuel (search.start initial startingPoints)).map fun s =>
    (s, (ranked s.collected).take search.limit)

/-! ## Where the search starts -/

/-- The hits of the global search, each URI once, then the roots -/
def startingPoints (globalResults : List (Record α)) (rootUris : List Str) : List (Str × ℚ) :=
  let hits := (globalResults.zip (search.queryScores globalResults)).foldl
    (fun points item =>
      if item.1.uri = [] ∨ item.1.uri ∈ points.map Prod.fst then points
      else points ++ [(item.1.uri, item.2)]) []
  rootUris.foldl
    (fun points uri => if uri ∈ points.map Prod.fst then points else points ++ [(uri, 0)]) hits

/-- The leaves found by a search of their own, then the directory hits of a level asked for -/
def initialCandidates (leafResults globalResults : List (Record α)) : List (Record α) :=
  match search.level with
  | none => leafResults
  | some levels =>
      leafResults ++ ((globalResults.zip (search.queryScores globalResults)).filter
        fun item => item.1.level.getD 2 ∈ levels).map fun item => { item.1 with score := item.2 }

/-! ## What the search is for -/

/-- All occurrences with their final scores -/
def occurrences (initial : List (Record α)) (s : State α) : List (Scored α) :=
  initial.map (fun r => (r, r.score)) ++ s.seen

structure Sound (initial : List (Record α)) (s : State α) (returned : List (Scored α)) : Prop where
  searched : s.searched.Nodup
  /-- What was seen are the children of what was searched. -/
  seen : s.seen.map Prod.fst = s.searched.flatMap search.children
  count : returned.length ≤ search.limit
  distinct : (returned.map fun c => c.1.uri).Nodup
  levels : ∀ c ∈ returned, search.Matches c.1 = true
  passed : ∀ c ∈ returned, search.passes c.2 = true
  ordered : returned.Pairwise fun a b => b.2 ≤ a.2
  /-- The score of a candidate is the greatest of all occurrences of its URI at a matching
  level. -/
  best : ∀ c ∈ returned, c ∈ occurrences initial s ∧
    ∀ o ∈ occurrences initial s, o.1.uri = c.1.uri → search.Matches o.1 = true → o.2 ≤ c.2
  /-- What is left out of the collected candidates is no better than what is returned. -/
  complete : ∀ c ∈ s.collected.values, c ∉ returned →
    returned.length = search.limit ∧ ∀ c' ∈ returned, c.2 ≤ c'.2

/-- The store names finitely many URIs. -/
def FiniteStore : Prop := ∃ uris : List Str, ∀ uri, ∀ r ∈ search.children uri, r.uri ∈ uris

/-- With enough fuel the search ends, always in the same way, and what it returns is right. -/
def Returns (initial : List (Record α)) (startingPoints : List (Str × ℚ)) : Prop :=
  ∃ fuel₀ s returned, search.Sound initial s returned ∧
    ∀ fuel, fuel₀ ≤ fuel → search.recursiveSearch fuel initial startingPoints = some (s, returned)

end Search

namespace Filter

variable {α : Type} (filter : Filter)

/-- The candidate of a URI that is stored last -/
def lastCounted (initial : List (Record α)) (uri : Str) : Option (Record α) :=
  (initial.filter fun r => filter.Counts r && r.uri = uri).getLast?

/-- The last candidate of a URI that counts is its best, and one without a URI is not above the
threshold: the search leaves it out. -/
structure Clean (initial : List (Record α)) : Prop where
  last : ∀ uri b, filter.lastCounted initial uri = some b →
    ∀ r ∈ initial, r.uri = uri → filter.Matches r = true → r.score ≤ b.score
  named : ∀ r ∈ initial, r.uri = [] → filter.Matches r = true → r.score ≤ filter.threshold

variable {filter}

theorem threshold_le_of_passes {score : ℚ} (h : filter.passes score = true) :
    filter.threshold ≤ score := by
  rw [passes] at h
  split at h
  · exact of_decide_eq_true h
  · exact le_of_lt (of_decide_eq_true h)

theorem passes_of_lt {score : ℚ} (h : filter.threshold < score) : filter.passes score = true := by
  rw [passes]
  split
  · exact decide_eq_true (le_of_lt h)
  · exact decide_eq_true h

/-! ## What is collected -/

/-- The dictionary keeps the best of these occurrences; those at the threshold itself may be
missing. -/
structure Keeps (filter : Filter) (occurrences : List (Scored α))
    (collected : Dict Str (Scored α)) : Prop where
  sound : ∀ uri c, collected.get uri = some c → c.1.uri = uri ∧ filter.Matches c.1 = true ∧
    filter.passes c.2 = true ∧ c ∈ occurrences
  best : ∀ o ∈ occurrences, filter.Matches o.1 = true → filter.threshold < o.2 →
    ∃ c, collected.get o.1.uri = some c ∧ o.2 ≤ c.2

variable {occurrences : List (Scored α)} {collected : Dict Str (Scored α)}

/-- A dictionary that is left as it is: the new occurrence is no better than what is there. -/
theorem Keeps.leave (h : Keeps filter occurrences collected) {o : Scored α}
    (ho : filter.Matches o.1 = true → filter.threshold < o.2 →
      ∃ c, collected.get o.1.uri = some c ∧ o.2 ≤ c.2) :
    Keeps filter (occurrences ++ [o]) collected := by
  refine ⟨fun uri c hget => ?_, fun o' ho' hmatches hscore => ?_⟩
  · obtain ⟨huri, hlevel, hpasses, hmem⟩ := h.sound uri c hget
    exact ⟨huri, hlevel, hpasses, List.mem_append_left _ hmem⟩
  · rcases List.mem_append.mp ho' with hmem | hmem
    · exact h.best o' hmem hmatches hscore
    · rw [List.mem_singleton.mp hmem] at hmatches hscore ⊢
      exact ho hmatches hscore

/-- One more occurrence that is stored: it is at least as good as what is there. -/
theorem Keeps.store (h : Keeps filter occurrences collected) {r : Record α} {score : ℚ}
    (hmatches : filter.Matches r = true) (hpasses : filter.passes score = true)
    (hbest : ∀ c, collected.get r.uri = some c → c.2 ≤ score) :
    Keeps filter (occurrences ++ [(r, score)]) (collected.set r.uri (r, score)) := by
  refine ⟨fun uri c hget => ?_, fun o ho hlevel hscore => ?_⟩
  · rw [Dict.get_set] at hget
    split at hget
    · next huri =>
        rw [← Option.some.inj hget]
        exact ⟨huri, hmatches, hpasses, List.mem_append_right _ List.mem_cons_self⟩
    · obtain ⟨huri, hlevel, hscore, hmem⟩ := h.sound uri c hget
      exact ⟨huri, hlevel, hscore, List.mem_append_left _ hmem⟩
  · rw [Dict.get_set]
    rcases List.mem_append.mp ho with hmem | hmem
    · obtain ⟨c, hget, hle⟩ := h.best o hmem hlevel hscore
      by_cases huri : r.uri = o.1.uri
      · rw [if_pos huri]
        rw [← huri] at hget
        exact ⟨(r, score), rfl, hle.trans (hbest c hget)⟩
      · rw [if_neg huri]
        exact ⟨c, hget, hle⟩
    · rw [List.mem_singleton.mp hmem, if_pos rfl]
      exact ⟨(r, score), rfl, le_rfl⟩

theorem Keeps.collect (h : Keeps filter occurrences collected) {r : Record α} {score : ℚ}
    (hmatches : filter.Matches r = true) (hpasses : filter.passes score = true) :
    Keeps filter (occurrences ++ [(r, score)]) (Search.collect collected r score) := by
  rw [Search.collect]
  cases hget : collected.get r.uri with
  | none =>
      refine h.store hmatches hpasses fun c hc => ?_
      rw [hget] at hc
      cases hc
  | some previous =>
      simp only
      split
      · next hlt =>
          refine h.store hmatches hpasses fun c hc => ?_
          rw [hget, Option.some.injEq] at hc
          rw [← hc]
          exact le_of_lt hlt
      · next hge => exact h.leave fun _ _ => ⟨previous, hget, not_lt.mp hge⟩

/-! ## The initial candidates -/

theorem lastCounted_append (initial : List (Record α)) (r : Record α) (uri : Str) :
    filter.lastCounted (initial ++ [r]) uri =
      if filter.Counts r = true ∧ r.uri = uri then some r else filter.lastCounted initial uri := by
  rw [lastCounted, List.filter_append]
  by_cases h : filter.Counts r = true ∧ r.uri = uri
  · have hkept : [r].filter (fun r' => filter.Counts r' && r'.uri = uri) = [r] := by
      simp [h.1, h.2]
    rw [if_pos h, hkept, List.getLast?_append]
    rfl
  · have hgone : [r].filter (fun r' => filter.Counts r' && r'.uri = uri) = [] := by
      simpa using h
    rw [if_neg h, hgone, List.append_nil, lastCounted]

theorem get_addInitial (collected : Dict Str (Scored α)) (r : Record α) (uri : Str) :
    (filter.addInitial collected r).get uri =
      if (filter.Counts r = true ∧ r.uri = uri) ∧ uri ≠ [] then some (r, r.score)
      else collected.get uri := by
  rw [addInitial]
  split
  · next hnil =>
      rw [if_neg]
      rintro ⟨⟨-, rfl⟩, hne⟩
      exact hne hnil
  · next hnamed =>
      split
      · next hlevel =>
          split
          · next hscore =>
              have hcounts : filter.Counts r = true := Bool.and_eq_true_iff.mpr ⟨hlevel, hscore⟩
              rw [Dict.get_set]
              by_cases huri : r.uri = uri
              · rw [if_pos huri, if_pos ⟨⟨hcounts, huri⟩, huri ▸ hnamed⟩]
              · rw [if_neg huri, if_neg fun h => huri h.1.2]
          · next hscore =>
              rw [if_neg fun h => hscore (Bool.and_eq_true_iff.mp h.1.1).2]
      · next hlevel => rw [if_neg fun h => hlevel (Bool.and_eq_true_iff.mp h.1.1).1]

/-- What the initial candidates leave: the last of each URI that counts, but none without a
URI -/
theorem get_initialPool (initial : List (Record α)) (uri : Str) :
    (filter.initialPool initial).get uri =
      if uri = [] then none
      else (filter.lastCounted initial uri).map fun r => (r, r.score) := by
  induction initial using List.reverseRecOn with
  | nil =>
      split
      · rfl
      · rfl
  | append_singleton initial r ih =>
      have hstep : filter.initialPool (initial ++ [r]) =
          filter.addInitial (filter.initialPool initial) r := by
        rw [initialPool, List.foldl_append]
        rfl
      rw [hstep, get_addInitial, ih, lastCounted_append]
      by_cases huri : uri = []
      · rw [if_neg fun h => h.2 huri, if_pos huri, if_pos huri]
      · by_cases hr : filter.Counts r = true ∧ r.uri = uri
        · rw [if_pos ⟨hr, huri⟩, if_neg huri, if_pos hr]
          rfl
        · rw [if_neg fun h => hr h.1, if_neg huri, if_neg huri, if_neg hr]

theorem lastCounted_spec {initial : List (Record α)} {uri : Str} {b : Record α}
    (h : filter.lastCounted initial uri = some b) :
    b ∈ initial ∧ filter.Matches b = true ∧ filter.passes b.score = true ∧ b.uri = uri := by
  have hmem := List.mem_filter.mp (List.mem_of_getLast? h)
  simp only [Counts, Bool.and_eq_true, decide_eq_true_eq] at hmem
  exact ⟨hmem.1, hmem.2.1.1, hmem.2.1.2, hmem.2.2⟩

theorem keeps_initialPool {initial : List (Record α)} (hclean : filter.Clean initial) :
    Keeps filter (initial.map fun r => (r, r.score)) (filter.initialPool initial) := by
  refine ⟨fun uri c hget => ?_, fun o ho hlevel hscore => ?_⟩
  · rw [get_initialPool] at hget
    split at hget
    · cases hget
    · obtain ⟨b, hlast, rfl⟩ := Option.map_eq_some_iff.mp hget
      obtain ⟨hmem, hmatches, hpasses, hb⟩ := lastCounted_spec hlast
      exact ⟨hb, hmatches, hpasses, List.mem_map_of_mem hmem⟩
  · obtain ⟨r, hr, rfl⟩ := List.mem_map.mp ho
    have hnamed : r.uri ≠ [] := by
      intro hnil
      exact absurd (hclean.named r hr hnil hlevel) (not_le.mpr hscore)
    -- `r` counts, so there is a last candidate of its URI
    cases hlast : filter.lastCounted initial r.uri with
    | none =>
        have hnone := List.getLast?_eq_none_iff.mp hlast
        have hcounts : filter.Counts r = true :=
          Bool.and_eq_true_iff.mpr ⟨hlevel, passes_of_lt hscore⟩
        have hmem : r ∈ initial.filter fun r' => filter.Counts r' && r'.uri = r.uri :=
          List.mem_filter.mpr ⟨hr, by simp [hcounts]⟩
        rw [hnone] at hmem
        cases hmem
    | some b =>
        refine ⟨(b, b.score), ?_, hclean.last r.uri b hlast r hr rfl hlevel⟩
        rw [get_initialPool, if_neg hnamed, hlast]
        rfl

end Filter

namespace Search

variable {α : Type} {search : Search α}

/-! ## Scores of the children -/

theorem length_placeScores (fallback : List ℚ) (places : List (Str × Nat))
    (scores : List (Option ℚ)) :
    (placeScores fallback places scores).length = fallback.length := by
  have hplace : ∀ (items : List (Option ℚ × Str × Nat)) (l : List ℚ),
      (items.foldl (fun normalized item =>
        normalized.set item.2.2 (item.1.getD (fallback.getD item.2.2 0))) l).length = l.length := by
    intro items
    induction items with
    | nil => exact fun l => rfl
    | cons item items ih =>
        intro l
        rw [List.foldl_cons, ih, List.length_set]
  exact hplace (scores.zip places) fallback

theorem length_rerankScores (documents : List Str) (fallback : List ℚ) :
    (search.rerankScores documents fallback).length = fallback.length := by
  rw [rerankScores]
  split
  · rfl
  · simp only
    split
    · rfl
    · split
      · rfl
      · split
        · rfl
        · exact length_placeScores fallback _ _

/-- Every child has its score: the strict `zip` of children and scores does not raise. -/
theorem map_fst_zip_queryScores (results : List (Record α)) :
    (results.zip (search.queryScores results)).map Prod.fst = results := by
  refine List.map_fst_zip ?_
  rw [queryScores, length_rerankScores, List.length_map]

/-! ## What one round does -/

theorem mem_push {queue : List (ℚ × Str)} {entry e : ℚ × Str} :
    e ∈ push queue entry ↔ e = entry ∨ e ∈ queue :=
  List.mem_orderedInsert before

variable (search) in
/-- One child changes the pool, the queue and what was seen. -/
theorem addChild_spec (current : ℚ) (s : State α) (item : Record α × ℚ) :
    ∃ collected queue, search.addChild current s item =
        { s with collected := collected, queue := queue,
                 seen := s.seen ++ [(item.1, search.finalScore current item.2)] } ∧
      (∀ occurrences, search.Keeps occurrences s.collected →
        search.Keeps (occurrences ++ [(item.1, search.finalScore current item.2)]) collected) ∧
      ∀ e ∈ queue, e ∈ s.queue ∨ e.2 = item.1.uri := by
  rw [addChild]
  simp only
  split
  · next hpasses =>
      split
      · next hlevel =>
          have hkeeps : ∀ occurrences, search.Keeps occurrences s.collected →
              search.Keeps (occurrences ++ [(item.1, search.finalScore current item.2)])
                (collect s.collected item.1 (search.finalScore current item.2)) :=
            fun occurrences h => h.collect hlevel hpasses
          split
          · refine ⟨_, _, rfl, hkeeps, fun e he => ?_⟩
            rcases mem_push.mp he with rfl | hmem
            · exact .inr rfl
            · exact .inl hmem
          · exact ⟨_, _, rfl, hkeeps, fun e he => .inl he⟩
      · next hlevel =>
          have hkeeps : ∀ occurrences, search.Keeps occurrences s.collected →
              search.Keeps (occurrences ++ [(item.1, search.finalScore current item.2)])
                s.collected :=
            fun occurrences h => h.leave fun hmatches _ => absurd hmatches hlevel
          split
          · refine ⟨_, _, rfl, hkeeps, fun e he => ?_⟩
            rcases mem_push.mp he with rfl | hmem
            · exact .inr rfl
            · exact .inl hmem
          · exact ⟨_, _, rfl, hkeeps, fun e he => .inl he⟩
  · next hfails =>
      refine ⟨_, _, rfl, fun occurrences h => h.leave fun _ hscore => ?_, fun e he => .inl he⟩
      exact absurd (Filter.passes_of_lt hscore) hfails

variable (search) in
theorem addChildren_spec (current : ℚ) (items : List (Record α × ℚ)) (s : State α) :
    ∃ collected queue seen, items.foldl (search.addChild current) s =
        { s with collected := collected, queue := queue, seen := s.seen ++ seen } ∧
      seen.map Prod.fst = items.map Prod.fst ∧
      (∀ occurrences, search.Keeps occurrences s.collected →
        search.Keeps (occurrences ++ seen) collected) ∧
      ∀ e ∈ queue, e ∈ s.queue ∨ ∃ item ∈ items, e.2 = item.1.uri := by
  induction items generalizing s with
  | nil =>
      refine ⟨s.collected, s.queue, [], ?_, rfl, fun occurrences h => ?_, fun e he => .inl he⟩
      · rw [List.append_nil]
        rfl
      · rwa [List.append_nil]
  | cons item items ih =>
      obtain ⟨collected, queue, hstep, hkeeps, hqueue⟩ :=
        addChild_spec search current s item
      obtain ⟨collected', queue', seen, hrest, hseen, hkeeps', hqueue'⟩ :=
        ih (search.addChild current s item)
      rw [hstep] at hrest hkeeps' hqueue'
      refine ⟨collected', queue', (item.1, search.finalScore current item.2) :: seen, ?_, ?_,
        fun occurrences h => ?_, fun e he => ?_⟩
      · rw [List.foldl_cons, hstep, hrest, List.append_assoc]
        rfl
      · rw [List.map_cons, List.map_cons, hseen]
      · have := hkeeps' _ (hkeeps occurrences h)
        rwa [List.append_assoc] at this
      · rcases hqueue' e he with hmem | ⟨item', hmem, heq⟩
        · rcases hqueue e hmem with hmem | heq
          · exact .inl hmem
          · exact .inr ⟨item, List.mem_cons_self, heq⟩
        · exact .inr ⟨item', List.mem_cons_of_mem _ hmem, heq⟩

variable (search) in
/-- A list of directories, expanded one after the other -/
theorem expandAll_spec (batch : List (Str × ℚ)) (s : State α) :
    ∃ collected queue seen, batch.foldl search.expand s =
        { s with collected := collected, queue := queue, seen := s.seen ++ seen,
                 searched := s.searched ++ batch.map Prod.fst } ∧
      seen.map Prod.fst = (batch.map Prod.fst).flatMap search.children ∧
      (∀ occurrences, search.Keeps occurrences s.collected →
        search.Keeps (occurrences ++ seen) collected) ∧
      ∀ e ∈ queue, e ∈ s.queue ∨ ∃ entry ∈ batch, ∃ r ∈ search.children entry.1, e.2 = r.uri := by
  induction batch generalizing s with
  | nil =>
      refine ⟨s.collected, s.queue, [], ?_, rfl, fun occurrences h => ?_, fun e he => .inl he⟩
      · rw [List.map_nil, List.append_nil, List.append_nil]
        rfl
      · rwa [List.append_nil]
  | cons entry batch ih =>
      obtain ⟨collected, queue, seen, hstep, hseen, hkeeps, hqueue⟩ :=
        addChildren_spec search entry.2
          ((search.children entry.1).zip (search.queryScores (search.children entry.1)))
          { s with searched := s.searched ++ [entry.1] }
      rw [map_fst_zip_queryScores] at hseen
      change search.expand s entry = _ at hstep
      obtain ⟨collected', queue', seen', hrest, hseen', hkeeps', hqueue'⟩ :=
        ih (search.expand s entry)
      rw [hstep] at hrest hkeeps' hqueue'
      refine ⟨collected', queue', seen ++ seen', ?_, ?_, fun occurrences h => ?_, fun e he => ?_⟩
      · rw [List.foldl_cons, hstep, hrest, List.map_cons]
        simp only [List.append_assoc, List.singleton_append]
      · rw [List.map_append, hseen, hseen', List.map_cons, List.flatMap_cons]
      · rw [← List.append_assoc]
        exact hkeeps' _ (hkeeps occurrences h)
      · rcases hqueue' e he with hmem | ⟨entry', hmem, hchild⟩
        · rcases hqueue e hmem with hmem | ⟨item, hmem, heq⟩
          · exact .inl hmem
          · refine .inr ⟨entry, List.mem_cons_self, item.1, ?_, heq⟩
            exact (List.of_mem_zip hmem).1
        · exact .inr ⟨entry', List.mem_cons_of_mem _ hmem, hchild⟩

/-- The batch is new, comes from the queue, and is empty only if the queue is used up. -/
theorem fillBatch_spec (queue : List (ℚ × Str)) (n : Nat) (visited : List Str) :
    (fillBatch queue n visited).2.2 = visited ++ (fillBatch queue n visited).1.map Prod.fst ∧
      (visited.Nodup → (fillBatch queue n visited).2.2.Nodup) ∧
      (∀ e ∈ (fillBatch queue n visited).2.1, e ∈ queue) ∧
      (∀ entry ∈ (fillBatch queue n visited).1, ∃ e ∈ queue, e.2 = entry.1) ∧
      (0 < n → (fillBatch queue n visited).1 = [] → (fillBatch queue n visited).2.1 = []) := by
  fun_induction fillBatch queue n visited with
  | case1 n visited =>
      exact ⟨(List.append_nil _).symm, id, fun e he => he, fun entry h => absurd h List.not_mem_nil,
        fun _ _ => rfl⟩
  | case2 visited e queue =>
      exact ⟨(List.append_nil _).symm, id, fun e he => he, fun entry h => absurd h List.not_mem_nil,
        fun h => absurd h (lt_irrefl 0)⟩
  | case3 negScore uri queue n visited hmem ih =>
      obtain ⟨hall, hnodup, hqueue, hbatch, hempty⟩ := ih
      refine ⟨hall, hnodup, fun e he => List.mem_cons_of_mem _ (hqueue e he), fun entry h => ?_,
        hempty⟩
      obtain ⟨e, he, heq⟩ := hbatch entry h
      exact ⟨e, List.mem_cons_of_mem _ he, heq⟩
  | case4 negScore uri queue n visited hmem batch rest hrec ih =>
      obtain ⟨hall, hnodup, hqueue, hbatch, -⟩ := ih
      rw [hrec] at hall hnodup hqueue hbatch
      refine ⟨?_, fun hvisited => hnodup ?_, fun e he => List.mem_cons_of_mem _ (hqueue e he),
        fun entry h => ?_, fun _ h => absurd h (List.cons_ne_nil _ _)⟩
      · rw [hall, List.map_cons, List.append_assoc]
        rfl
      · rw [List.nodup_append]
        refine ⟨hvisited, List.nodup_singleton uri, fun a ha b hb => ?_⟩
        rw [List.mem_singleton.mp hb]
        exact fun h => hmem (h ▸ ha)
      · rcases List.mem_cons.mp h with rfl | h
        · exact ⟨(negScore, uri), List.mem_cons_self, rfl⟩
        · obtain ⟨e, he, heq⟩ := hbatch entry h
          exact ⟨e, List.mem_cons_of_mem _ he, heq⟩

/-! ## The invariant -/

/-- What holds between two rounds; `uris` are all URIs the store and the starting points name. -/
structure Inv (search : Search α) (initial : List (Record α)) (uris : List Str) (s : State α) :
    Prop where
  keeps : search.Keeps (occurrences initial s) s.collected
  searched : s.searched = s.visited
  visited : s.visited.Nodup
  seen : s.seen.map Prod.fst = s.searched.flatMap search.children
  known : ∀ uri ∈ s.visited, uri ∈ uris
  queue : ∀ e ∈ s.queue, e.2 ∈ uris

variable {initial : List (Record α)} {uris : List Str} {s : State α}

theorem inv_start (hclean : search.Clean initial) {startingPoints : List (Str × ℚ)}
    (hstarts : ∀ point ∈ startingPoints, point.1 ∈ uris) :
    Inv search initial uris (search.start initial startingPoints) := by
  have hpushed : ∀ (points : List (Str × ℚ)) (queue : List (ℚ × Str)),
      (∀ point ∈ points, point.1 ∈ uris) → (∀ e ∈ queue, e.2 ∈ uris) →
      ∀ e ∈ points.foldl (fun queue point => push queue (-point.2, point.1)) queue, e.2 ∈ uris := by
    intro points
    induction points with
    | nil => exact fun queue _ hqueue => hqueue
    | cons point points ih =>
        intro queue hpoints hqueue
        refine ih _ (fun p hp => hpoints p (List.mem_cons_of_mem _ hp)) fun e he => ?_
        rcases mem_push.mp he with rfl | hmem
        · exact hpoints point List.mem_cons_self
        · exact hqueue e hmem
  refine ⟨?_, rfl, List.nodup_nil, rfl, fun uri h => absurd h List.not_mem_nil,
    hpushed startingPoints [] hstarts fun e h => absurd h List.not_mem_nil⟩
  have hpool := Filter.keeps_initialPool hclean
  rw [occurrences]
  change search.Keeps (initial.map (fun r => (r, r.score)) ++ []) (search.initialPool initial)
  rwa [List.append_nil]

variable (search) in
/-- The convergence check changes its own counters only. -/
theorem converge_spec (s : State α) :
    ∃ prevTopk prevPoolSize convergenceRounds stagnantRounds,
      (search.converge s).1 =
        { s with prevTopk := prevTopk, prevPoolSize := prevPoolSize,
                 convergenceRounds := convergenceRounds, stagnantRounds := stagnantRounds } := by
  rw [converge]
  split
  · exact ⟨_, _, _, _, rfl⟩
  · split
    · exact ⟨_, _, _, _, rfl⟩
    · exact ⟨_, _, _, _, rfl⟩

theorem Inv.converge (h : Inv search initial uris s) :
    Inv search initial uris (search.converge s).1 := by
  obtain ⟨prevTopk, prevPoolSize, convergenceRounds, stagnantRounds, heq⟩ :=
    converge_spec search s
  rw [heq]
  exact ⟨h.keeps, h.searched, h.visited, h.seen, h.known, h.queue⟩

/-- The state before the convergence check of a round -/
def expanded (search : Search α) (s : State α) : State α :=
  let filled := fillBatch s.queue (max 1 search.maxParallel) s.visited
  filled.1.foldl search.expand { s with queue := filled.2.1, visited := filled.2.2 }

variable (search) in
theorem round_eq (s : State α) :
    search.round s =
      if (fillBatch s.queue (max 1 search.maxParallel) s.visited).1 = [] then
        (search.expanded s, false)
      else search.converge (search.expanded s) := by
  rw [round, expanded]
  simp only
  split
  · next h => rw [h, List.foldl_nil]
  · rfl

variable (search) in
/-- The convergence check leaves what a round has expanded. -/
theorem round_frame (s : State α) :
    (search.round s).1.collected = (search.expanded s).collected ∧
      (search.round s).1.queue = (search.expanded s).queue ∧
      (search.round s).1.visited = (search.expanded s).visited := by
  rw [round_eq]
  split
  · exact ⟨rfl, rfl, rfl⟩
  · obtain ⟨prevTopk, prevPoolSize, convergenceRounds, stagnantRounds, heq⟩ :=
      converge_spec search (search.expanded s)
    rw [heq]
    exact ⟨rfl, rfl, rfl⟩

/-- A round keeps the invariant; it visits a directory or uses up the queue. -/
theorem Inv.expanded (h : Inv search initial uris s)
    (huris : ∀ uri, ∀ r ∈ search.children uri, r.uri ∈ uris) :
    Inv search initial uris (search.expanded s) ∧
      (search.expanded s).visited = s.visited ++
        (fillBatch s.queue (max 1 search.maxParallel) s.visited).1.map Prod.fst ∧
      ((fillBatch s.queue (max 1 search.maxParallel) s.visited).1 = [] →
        (search.expanded s).queue = []) := by
  obtain ⟨hall, hnodup, hqueue, hbatch, hempty⟩ :=
    fillBatch_spec s.queue (max 1 search.maxParallel) s.visited
  rw [Search.expanded]
  generalize fillBatch s.queue (max 1 search.maxParallel) s.visited = filled at *
  obtain ⟨collected, queue, seen, heq, hseen, hkeeps, hnew⟩ :=
    expandAll_spec search filled.1 { s with queue := filled.2.1, visited := filled.2.2 }
  refine ⟨?_, ?_, fun hnone => ?_⟩
  · rw [heq]
    refine ⟨?_, ?_, hnodup h.visited, ?_, fun uri huri => ?_, fun e he => ?_⟩
    · have := hkeeps (occurrences initial s) h.keeps
      rwa [occurrences, List.append_assoc] at this
    · change s.searched ++ filled.1.map Prod.fst = filled.2.2
      rw [h.searched, hall]
    · change (s.seen ++ seen).map Prod.fst =
        (s.searched ++ filled.1.map Prod.fst).flatMap search.children
      rw [List.map_append, h.seen, hseen, List.flatMap_append]
    · change uri ∈ filled.2.2 at huri
      rw [hall] at huri
      rcases List.mem_append.mp huri with hmem | hmem
      · exact h.known uri hmem
      · obtain ⟨entry, hentry, rfl⟩ := List.mem_map.mp hmem
        obtain ⟨e, he, heq'⟩ := hbatch entry hentry
        exact heq' ▸ h.queue e he
    · rcases hnew e he with hmem | ⟨entry, -, r, hr, huri⟩
      · exact h.queue e (hqueue e hmem)
      · exact huri ▸ huris entry.1 r hr
  · rw [heq]
    exact hall
  · rw [hnone, List.foldl_nil]
    exact hempty (by omega) hnone

theorem Inv.length_visited_le (h : Inv search initial uris s) :
    s.visited.length ≤ uris.length :=
  (List.subperm_of_subset h.visited h.known).length_le

theorem loop_of_queue_nil (h : s.queue = []) {fuel : Nat} (hfuel : 1 ≤ fuel) :
    search.loop fuel s = some s := by
  obtain ⟨fuel, rfl⟩ := Nat.exists_eq_add_of_le' hfuel
  rw [loop, if_pos h]

theorem loop_of_stop (h : s.queue ≠ []) (hstop : (search.round s).2 = true) {fuel : Nat}
    (hfuel : 1 ≤ fuel) : search.loop fuel s = some (search.round s).1 := by
  obtain ⟨fuel, rfl⟩ := Nat.exists_eq_add_of_le' hfuel
  rw [loop, if_neg h, ← Prod.eta (search.round s), hstop]

theorem loop_of_go (h : s.queue ≠ []) (hgo : (search.round s).2 = false) (fuel : Nat) :
    search.loop (fuel + 1) s = search.loop fuel (search.round s).1 := by
  rw [loop, if_neg h, ← Prod.eta (search.round s), hgo]

/-- The search ends: a round that does not use up the queue visits one more of the URIs. -/
theorem loop_ends (huris : ∀ uri, ∀ r ∈ search.children uri, r.uri ∈ uris) (k : Nat)
    (h : Inv search initial uris s) (hk : uris.length ≤ s.visited.length + k) :
    ∃ s', Inv search initial uris s' ∧ ∀ fuel, k + 2 ≤ fuel → search.loop fuel s = some s' := by
  induction k using Nat.strong_induction_on generalizing s with
  | _ k ih =>
      by_cases hqueue : s.queue = []
      · exact ⟨s, h, fun fuel hfuel => loop_of_queue_nil hqueue (by omega)⟩
      obtain ⟨hinv, hvisited, hempty⟩ := h.expanded huris
      have hround := round_eq search s
      by_cases hbatch : (fillBatch s.queue (max 1 search.maxParallel) s.visited).1 = []
      · rw [if_pos hbatch] at hround
        refine ⟨search.expanded s, hinv, fun fuel hfuel => ?_⟩
        obtain ⟨fuel, rfl⟩ := Nat.exists_eq_add_of_le' (show 1 ≤ fuel by omega)
        rw [loop_of_go hqueue (by rw [hround]), hround]
        exact loop_of_queue_nil (hempty hbatch) (by omega)
      · rw [if_neg hbatch] at hround
        have hconverged : Inv search initial uris (search.round s).1 := by
          rw [hround]
          exact hinv.converge
        cases hstop : (search.round s).2 with
        | true =>
            exact ⟨_, hconverged, fun fuel hfuel => loop_of_stop hqueue hstop (by omega)⟩
        | false =>
            have hgrows : s.visited.length < (search.round s).1.visited.length := by
              rw [(round_frame search s).2.2, hvisited, List.length_append, List.length_map]
              exact Nat.lt_add_of_pos_right (List.length_pos_iff.mpr hbatch)
            have hbound := hconverged.length_visited_le
            obtain ⟨s', hs', hloop⟩ := ih (k - 1) (by omega) hconverged (by omega)
            refine ⟨s', hs', fun fuel hfuel => ?_⟩
            obtain ⟨fuel, rfl⟩ := Nat.exists_eq_add_of_le' (show 1 ≤ fuel by omega)
            rw [loop_of_go hqueue hstop]
            exact hloop fuel (by omega)

/-! ## What is returned -/

theorem perm_ranked (collected : Dict Str (Scored α)) :
    (ranked collected).Perm collected.values :=
  List.perm_insertionSort _ _

theorem sorted_ranked (collected : Dict Str (Scored α)) :
    (ranked collected).Pairwise fun a b => b.2 ≤ a.2 := by
  have : Std.Total fun a b : Scored α => b.2 ≤ a.2 := ⟨fun a b => le_total b.2 a.2⟩
  have : IsTrans (Scored α) fun a b => b.2 ≤ a.2 := ⟨fun a b c hab hbc => hbc.trans hab⟩
  exact List.pairwise_insertionSort _ _

theorem nodup_uris {occurrences : List (Scored α)} {collected : Dict Str (Scored α)}
    (h : search.Keeps occurrences collected) :
    ((ranked collected).map fun c => c.1.uri).Nodup := by
  have hkeys : (collected.values.map fun c => c.1.uri) = collected.keys := by
    rw [Dict.values, Dict.keys, List.map_map]
    refine List.map_congr_left fun item hitem => ?_
    exact (h.sound item.1 item.2 (Dict.get_eq_some.mpr hitem)).1
  refine ((perm_ranked collected).map _).nodup_iff.mpr ?_
  rw [hkeys]
  exact collected.nodup

theorem Inv.sound (h : Inv search initial uris s) :
    search.Sound initial s ((ranked s.collected).take search.limit) := by
  have hsub : ∀ c ∈ (ranked s.collected).take search.limit, c ∈ s.collected.values :=
    fun c hc => (perm_ranked s.collected).mem_iff.mp (List.mem_of_mem_take hc)
  have hentry : ∀ c ∈ s.collected.values, s.collected.get c.1.uri = some c ∧
      search.Matches c.1 = true ∧ search.passes c.2 = true ∧ c ∈ occurrences initial s := by
    intro c hc
    obtain ⟨uri, hget⟩ := Dict.mem_values.mp hc
    obtain ⟨huri, hlevel, hpasses, hmem⟩ := h.keeps.sound uri c hget
    exact ⟨huri ▸ hget, hlevel, hpasses, hmem⟩
  refine ⟨h.searched ▸ h.visited, h.seen, List.length_take_le _ _, ?_,
    fun c hc => (hentry c (hsub c hc)).2.1, fun c hc => (hentry c (hsub c hc)).2.2.1,
    (sorted_ranked s.collected).sublist (List.take_sublist _ _), fun c hc => ?_,
    fun c hc hleft => ?_⟩
  · exact (nodup_uris h.keeps).sublist ((List.take_sublist _ _).map _)
  · obtain ⟨hget, -, hpasses, hmem⟩ := hentry c (hsub c hc)
    refine ⟨hmem, fun o ho huri hlevel => ?_⟩
    rcases le_or_gt o.2 search.threshold with hlow | hhigh
    · exact hlow.trans (Filter.threshold_le_of_passes hpasses)
    · obtain ⟨c', hget', hle⟩ := h.keeps.best o ho hlevel hhigh
      rw [huri, hget, Option.some.injEq] at hget'
      exact hget' ▸ hle
  · -- a candidate that is not returned stands behind the limit
    have hsplit := List.take_append_drop search.limit (ranked s.collected)
    have hdropped : c ∈ (ranked s.collected).drop search.limit := by
      have hc' := (perm_ranked s.collected).mem_iff.mpr hc
      rw [← hsplit] at hc'
      exact (List.mem_append.mp hc').resolve_left hleft
    have hlong : search.limit < (ranked s.collected).length := by
      by_contra hshort
      rw [List.drop_eq_nil_of_le (not_lt.mp hshort)] at hdropped
      exact absurd hdropped List.not_mem_nil
    have hsorted := sorted_ranked s.collected
    rw [← hsplit] at hsorted
    refine ⟨?_, fun c' hc' => (List.pairwise_append.mp hsorted).2.2 c' hc' c hdropped⟩
    rw [List.length_take]
    omega

/-- The condition is enough. -/
theorem returns_of_clean (hclean : search.Clean initial) (hfinite : search.FiniteStore)
    (startingPoints : List (Str × ℚ)) : search.Returns initial startingPoints := by
  obtain ⟨uris, huris⟩ := hfinite
  have hinv : Inv search initial (startingPoints.map Prod.fst ++ uris)
      (search.start initial startingPoints) :=
    inv_start hclean fun point hpoint => List.mem_append_left _ (List.mem_map_of_mem hpoint)
  obtain ⟨s, hs, hloop⟩ := loop_ends (fun uri r hr => List.mem_append_right _ (huris uri r hr)) _
    hinv (Nat.le_add_left _ _)
  refine ⟨(startingPoints.map Prod.fst ++ uris).length + 2, s, _, hs.sound, ?_⟩
  intro fuel hfuel
  rw [recursiveSearch, hloop fuel hfuel]
  rfl

/-! ## The condition is needed -/

theorem addChild_collected {current : ℚ} {item : Record α × ℚ}
    (hpasses : search.passes (search.finalScore current item.2) = true)
    (hlevel : search.Matches item.1 = true) :
    (search.addChild current s item).collected =
      collect s.collected item.1 (search.finalScore current item.2) := by
  rw [addChild]
  simp only
  rw [if_pos hpasses, if_pos hlevel]
  split
  · rfl
  · rfl

theorem expandAll_of_children_nil (batch : List (Str × ℚ)) (s : State α)
    (h : ∀ entry ∈ batch, search.children entry.1 = []) :
    batch.foldl search.expand s = { s with searched := s.searched ++ batch.map Prod.fst } := by
  induction batch generalizing s with
  | nil =>
      rw [List.map_nil, List.append_nil]
      rfl
  | cons entry batch ih =>
      have hentry : search.expand s entry = { s with searched := s.searched ++ [entry.1] } := by
        rw [expand, h entry List.mem_cons_self]
        rfl
      rw [List.foldl_cons, hentry, ih _ fun e he => h e (List.mem_cons_of_mem _ he), List.map_cons]
      simp only [List.append_assoc, List.singleton_append]

theorem expanded_of_children_nil (h : ∀ e ∈ s.queue, search.children e.2 = []) :
    (search.expanded s).collected = s.collected ∧ ∀ e ∈ (search.expanded s).queue, e ∈ s.queue := by
  obtain ⟨-, -, hqueue, hbatch, -⟩ := fillBatch_spec s.queue (max 1 search.maxParallel) s.visited
  rw [expanded, expandAll_of_children_nil]
  · exact ⟨rfl, hqueue⟩
  · intro entry hentry
    obtain ⟨e, he, heq⟩ := hbatch entry hentry
    exact heq ▸ h e he

/-- Directories without children add nothing. -/
theorem loop_of_children_nil (fuel : Nat) {s' : State α}
    (h : ∀ e ∈ s.queue, search.children e.2 = []) (hloop : search.loop fuel s = some s') :
    s'.collected = s.collected := by
  induction fuel generalizing s with
  | zero => cases hloop
  | succ fuel ih =>
      by_cases hqueue : s.queue = []
      · rw [loop_of_queue_nil hqueue (Nat.succ_pos fuel)] at hloop
        rw [Option.some.inj hloop]
      · obtain ⟨hcollected, hrest⟩ := expanded_of_children_nil h
        obtain ⟨hframe, hleft, -⟩ := round_frame search s
        cases hstop : (search.round s).2 with
        | true =>
            rw [loop_of_stop hqueue hstop (Nat.succ_pos fuel)] at hloop
            rw [← Option.some.inj hloop, hframe, hcollected]
        | false =>
            rw [loop_of_go hqueue hstop] at hloop
            rw [ih (fun e he => h e (hrest e (hleft ▸ he))) hloop, hframe, hcollected]

/-- A limit above the size of the pool returns the whole pool. -/
theorem recursiveSearch_collected {startingPoints : List (Str × ℚ)} {returned : List (Scored α)}
    {fuel : Nat} (hrun : search.recursiveSearch fuel initial startingPoints = some (s, returned))
    (hfew : s.collected.items.length ≤ search.limit) :
    search.loop fuel (search.start initial startingPoints) = some s ∧
      ∀ c, c ∈ returned ↔ c ∈ s.collected.values := by
  obtain ⟨s', hloop, heq⟩ := Option.map_eq_some_iff.mp hrun
  obtain ⟨rfl, rfl⟩ := Prod.mk.inj heq
  refine ⟨hloop, fun c => ?_⟩
  have hlength : (ranked s'.collected).length = s'.collected.items.length := by
    rw [(perm_ranked s'.collected).length_eq, Dict.values, List.length_map]
  rw [List.take_of_length_le (hlength ▸ hfew)]
  exact (perm_ranked s'.collected).mem_iff

end Search

namespace Filter

variable {α : Type} (filter : Filter)

/-- A store that has one directory, the root -/
def singleStore (limit : Nat) (results : List (Record α)) : Search α where
  toFilter := filter
  limit := limit
  alpha := 1
  maxParallel := 1
  maxRounds := 1
  children := fun uri => if uri = ['/'] then results else []
  rerankBatch := none

theorem finiteStore_singleStore (limit : Nat) (results : List (Record α)) :
    (filter.singleStore limit results).FiniteStore := by
  refine ⟨results.map Record.uri, fun uri r hr => ?_⟩
  change r ∈ (if uri = ['/'] then results else []) at hr
  split at hr
  · exact List.mem_map_of_mem hr
  · cases hr

variable {filter} {initial : List (Record α)}

/-- A search without a starting point returns the pool of initial candidates. -/
theorem last_of_returns
    (h : ∀ search : Search α, search.toFilter = filter → 1 ≤ search.limit → search.FiniteStore →
      ∀ startingPoints, search.Returns initial startingPoints)
    {uri : Str} {b r : Record α} (huri : uri ≠ [])
    (hlast : filter.lastCounted initial uri = some b) (hr : r ∈ initial) (hsame : r.uri = uri)
    (hlevel : filter.Matches r = true) : r.score ≤ b.score := by
  let search : Search α :=
    filter.singleStore ((filter.initialPool initial).items.length + 1) []
  obtain ⟨fuel, s, returned, hsound, hrun⟩ :=
    h search rfl (Nat.le_add_left 1 _) (filter.finiteStore_singleStore _ _) []
  have hrun := hrun (fuel + 1) (Nat.le_add_right _ _)
  have hs : s = search.start initial [] := by
    obtain ⟨s', hloop, heq⟩ := Option.map_eq_some_iff.mp hrun
    rw [Search.loop_of_queue_nil rfl (Nat.le_add_left 1 fuel)] at hloop
    rw [Option.some.inj hloop, (Prod.mk.inj heq).1]
  have hreturned := (Search.recursiveSearch_collected hrun (by rw [hs]; exact Nat.le_succ _)).2
  have hget : (filter.initialPool initial).get uri = some (b, b.score) := by
    rw [get_initialPool, if_neg huri, hlast]
    rfl
  have hb : (b, b.score) ∈ returned := by
    rw [hreturned, hs]
    exact Dict.mem_values.mpr ⟨uri, hget⟩
  refine (hsound.best _ hb).2 (r, r.score) ?_ ?_ hlevel
  · exact List.mem_append_left _ (List.mem_map_of_mem hr)
  · rw [hsame, (lastCounted_spec hlast).2.2.2]

/-- A child without a URI that is worse than an initial candidate without one -/
def worseChild (filter : Filter) (r : Record α) : Record α :=
  { r with score := (filter.threshold + r.score) / 2 }

/-- The root has the one child `r`, which has no URI: it is collected in the first round, and no
later one adds anything. -/
theorem loop_singleStore {limit fuel : Nat} {r : Record α} {s : Search.State α} (huri : r.uri = [])
    (hlevel : filter.Matches r = true) (hpasses : filter.passes r.score = true)
    (hloop : (filter.singleStore limit [r]).loop fuel
      ((filter.singleStore limit [r]).start initial [(['/'], 0)]) = some s) :
    s.collected = (filter.initialPool initial).set [] (r, r.score) := by
  let search := filter.singleStore limit [r]
  let first := search.start initial [(['/'], 0)]
  have hscore : search.finalScore (- -0) r.score = r.score := by
    rw [Search.finalScore, if_neg (by simp)]
  have hcollect : Search.collect (filter.initialPool initial) r r.score =
      (filter.initialPool initial).set [] (r, r.score) := by
    have hnone : (filter.initialPool initial).get r.uri = none := by
      rw [get_initialPool, if_pos huri]
    rw [Search.collect, hnone, huri]
  have hexpanded : search.expanded first =
      search.addChild (- -0)
        { first with queue := [], visited := [['/']], searched := [['/']] } (r, r.score) := rfl
  have hpool : (search.expanded first).collected =
      (filter.initialPool initial).set [] (r, r.score) := by
    rw [hexpanded, Search.addChild_collected (hscore.symm ▸ hpasses) hlevel, hscore]
    exact hcollect
  have hchildren : ∀ e ∈ (search.expanded first).queue, e.2 = [] := by
    intro e he
    obtain ⟨collected, queue, heq, -, hqueue⟩ := Search.addChild_spec search (- -0)
      { first with queue := [], visited := [['/']], searched := [['/']] } (r, r.score)
    rw [hexpanded, heq] at he
    exact ((hqueue e he).resolve_left List.not_mem_nil).trans huri
  obtain ⟨hframe, hleft, -⟩ := Search.round_frame search first
  have hqueue : first.queue ≠ [] := List.cons_ne_nil _ _
  cases fuel with
  | zero => cases hloop
  | succ fuel =>
      cases hstop : (search.round first).2 with
      | true =>
          rw [Search.loop_of_stop hqueue hstop (Nat.succ_pos fuel)] at hloop
          rw [← Option.some.inj hloop, hframe, hpool]
      | false =>
          rw [Search.loop_of_go hqueue hstop] at hloop
          rw [Search.loop_of_children_nil fuel (fun e he => ?_) hloop, hframe, hpool]
          rw [hchildren e (hleft ▸ he)]
          rfl

theorem named_of_returns
    (h : ∀ search : Search α, search.toFilter = filter → 1 ≤ search.limit → search.FiniteStore →
      ∀ startingPoints, search.Returns initial startingPoints)
    {r : Record α} (hr : r ∈ initial) (huri : r.uri = []) (hlevel : filter.Matches r = true) :
    r.score ≤ filter.threshold := by
  by_contra hhigh
  have hpasses : filter.passes (filter.worseChild r).score = true := by
    refine passes_of_lt ?_
    change filter.threshold < (filter.threshold + r.score) / 2
    linarith
  let pool := (filter.initialPool initial).set [] (filter.worseChild r, (filter.worseChild r).score)
  let search : Search α := filter.singleStore (pool.items.length + 1) [filter.worseChild r]
  obtain ⟨fuel, s, returned, hsound, hrun⟩ :=
    h search rfl (Nat.le_add_left 1 _) (filter.finiteStore_singleStore _ _) [(['/'], 0)]
  have hrun := hrun fuel le_rfl
  have hs : s.collected = pool := by
    obtain ⟨s', hloop, heq⟩ := Option.map_eq_some_iff.mp hrun
    rw [← (Prod.mk.inj heq).1]
    exact loop_singleStore huri hlevel hpasses hloop
  have hreturned := (Search.recursiveSearch_collected hrun (by rw [hs]; exact Nat.le_succ _)).2
  have hchild : (filter.worseChild r, (filter.worseChild r).score) ∈ returned := by
    rw [hreturned, hs]
    exact Dict.mem_values.mpr ⟨[], by rw [Dict.get_set, if_pos rfl]⟩
  have hle : r.score ≤ (filter.threshold + r.score) / 2 :=
    (hsound.best _ hchild).2 (r, r.score) (List.mem_append_left _ (List.mem_map_of_mem hr)) rfl
      hlevel
  linarith

end Filter

/-- For a level filter and a threshold: the search is right for every finite store, reranker,
limit and list of starting points, exactly if the initial candidates are clean. -/
theorem recursiveSearch_sound_iff {α : Type} (filter : Filter) (initial : List (Record α)) :
    (∀ search : Search α, search.toFilter = filter → 1 ≤ search.limit → search.FiniteStore →
      ∀ startingPoints, search.Returns initial startingPoints) ↔ filter.Clean initial := by
  constructor
  · intro h
    refine ⟨fun uri b hlast r hr hsame hlevel => ?_,
      fun r hr huri hlevel => Filter.named_of_returns h hr huri hlevel⟩
    by_cases huri : uri = []
    · have hlow := Filter.named_of_returns h hr (hsame.trans huri) hlevel
      exact hlow.trans (Filter.threshold_le_of_passes (Filter.lastCounted_spec hlast).2.2.1)
    · exact Filter.last_of_returns h huri hlast hr hsame hlevel
  · intro hclean search hfilter _ hfinite startingPoints
    subst hfilter
    exact Search.returns_of_clean hclean hfinite startingPoints

namespace Sample

/-- The directory `a` was found by its abstract and, with a lower score, by its overview. -/
def overviewHits : List (Record Unit) :=
  [⟨['a'], some 0, 9 / 10, ['x'], ()⟩, ⟨['a'], some 1, 1 / 2, ['y'], ()⟩]

/-- Directories are asked for; the store is empty. -/
def directorySearch : Search Unit where
  threshold := 0
  scoreGte := false
  level := some [0, 1]
  limit := 5
  alpha := 1 / 2
  maxParallel := 8
  maxRounds := 3
  children := fun _ => []
  rerankBatch := none

/-- The two hits become initial candidates of one URI; the lower score is returned. -/
theorem lower_score_returned :
    directorySearch.initialCandidates [] overviewHits = overviewHits ∧
      ((directorySearch.recursiveSearch 9
          (directorySearch.initialCandidates [] overviewHits)
          (directorySearch.startingPoints overviewHits [])).map fun out => out.2) =
        some [(⟨['a'], some 1, 1 / 2, ['y'], ()⟩, 1 / 2)] := by
  decide +kernel

end Sample

end OpenViking.Retrieve
