/-
# `OpenViking.Context.Budget` — filling a token budget with memories

`retrieve/context_assembler/budget.py`, with the tiers of `tiers.py` and the
settings of `params.py`.  A first pass places every candidate at its default
tier, or at a cheaper one that fits; then three passes spend what is left on
deeper tiers, which may also be cheaper than what they replace.

The books balance after every step:

    used  =  Σ tokens of the entries  +  one for each separator  ≤  max_tokens

(`Filled`), and since estimates are subadditive the rendering of the entries costs
no more than that (`plan_within_budget`).  The overview of a text, the hash of a
string and what lies in the content map are parameters.
-/
import OpenViking.Context.Render
import OpenViking.Session.Tokens
import Mathlib.Algebra.BigOperators.Ring.Finset
import Mathlib.Data.List.Forall2

namespace OpenViking.Context

open OpenViking.Lib
open OpenViking.Session (estimateTextTokens)

/-! ## Candidates and tiers -/

/-- `Candidate`, as far as the plan reads it. -/
structure Candidate where
  baseUri : Str
  category : Str
  score : Score
  abstract : Str
  isDirectory : Bool
  deriving DecidableEq, Repr

def Tier.rank : Tier → Nat
  | .uri => 0
  | .abstract => 1
  | .overview => 2
  | .full => 3

def tierOrder : List Tier := [.uri, .abstract, .overview, .full]

def memoryCategories : List Str :=
  ["events".toList, "entities".toList, "preferences".toList, "experiences".toList]

def otherMemoryCategory : Str := "memories".toList

/-- `REPORTED_CATEGORY_KEYS` -/
def reportedCategoryKeys : List Str :=
  memoryCategories ++ ["resources".toList, "skills".toList, otherMemoryCategory]

/-- `FULL_BODY_ABSTRACT_CATEGORIES` -/
def fullBodyAbstractCategories : List Str := memoryCategories ++ [otherMemoryCategory]

/-- `DEFAULT_TIER_BY_CATEGORY`, and `DEFAULT_TIER` for the others -/
def defaultTier (category : Str) : Tier :=
  if category = "events".toList then .overview else .abstract

/-- `DEPTH_CEILING_BY_CATEGORY` -/
def depthCeiling? (category : Str) : Option Tier :=
  if category = "events".toList then some .full else none

/-! ## The setting `detail` -/

structure DetailPins where
  scalar : Option Tier
  byCategory : List (Str × Tier)
  deriving DecidableEq, Repr

def DetailPins.forCategory (pins : DetailPins) (category : Str) : Option Tier :=
  match pins.byCategory.lookup category with
  | some tier => some tier
  | none => pins.scalar

/-- What a caller may pass: pins, a tier for some categories, one tier, or nothing. -/
inductive Detail
  | pins (pins : DetailPins)
  | mapping (tiers : List (Str × Str))
  | scalar (tier : Option Str)
  deriving DecidableEq, Repr

/-- The tiers that can be pinned. -/
def pinnable (tier : Str) : Option Tier :=
  if tier = "abstract".toList then some .abstract
  else if tier = "overview".toList then some .overview
  else if tier = "full".toList then some .full
  else none

def normalizeDetail : Detail → DetailPins
  | .pins pins => pins
  | .mapping tiers =>
      ⟨none, tiers.filterMap fun (key, tier) =>
        if key ∈ reportedCategoryKeys then (pinnable tier).map (key, ·) else none⟩
  | .scalar tier => ⟨tier.bind pinnable, []⟩

/-! ## What the passes share -/

structure Request where
  candidates : List Candidate
  contents : Str → Str
  detail : Detail
  maxTokens : Int
  /-- `overview_from_content`, on a content that is not empty -/
  overviewFromContent : Candidate → Str → Str
  hash : Str → Int

namespace Request

variable (r : Request)

/-- `max(1, int(max_tokens))` -/
def budget : Int := max 1 r.maxTokens

/-- `per_entry_cap` -/
def cap : Int := max 1 (r.budget / max 1 (r.candidates.length : Int) * 2)

def contentUriFor (c : Candidate) : Str :=
  if c.isDirectory then c.baseUri ++ "/.overview.md".toList else c.baseUri

/-- `text or None` -/
def orNone (text : Str) : Option Str := if text = [] then none else some text

def tierText (c : Candidate) : Tier → Option Str
  | .uri => some []
  | .abstract => orNone (strip c.abstract)
  | .overview =>
      let content := r.contents (contentUriFor c)
      orNone (if content = [] then [] else r.overviewFromContent c content)
  | .full => if c.isDirectory then none else orNone (strip (r.contents (contentUriFor c)))

def abstractSubstitute (c : Candidate) : Tier :=
  if c.category ∈ fullBodyAbstractCategories then .overview else .uri

def startTier (c : Candidate) (pin : Option Tier) : Tier :=
  if c.isDirectory then .overview
  else
    let tier := pin.getD (defaultTier c.category)
    if tier = .abstract ∧ strip c.abstract = [] then abstractSubstitute c else tier

/-- Where a candidate starts, and how far it may deepen. -/
def tierWindow (c : Candidate) (pin : Option Tier) : Tier × Tier :=
  let start := startTier c pin
  if pin.isSome || c.isDirectory then (start, start)
  else
    let ceiling := (depthCeiling? c.category).getD start
    (start, if start.rank < ceiling.rank then ceiling else start)

def tiersDownFrom (c : Candidate) (tier : Tier) : List Tier :=
  let order := (tierOrder.take (tier.rank + 1)).reverse
  -- the stored abstract is the whole body, so the overview is a cheaper substitute
  if tier = .abstract ∧ abstractSubstitute c = .overview then order.insertIdx 1 .overview
  else order

/-- Token cost of one rendered fragment, envelope included. -/
def fragmentTokens (e : AssembledEntry) : Nat := estimateTextTokens (renderEntry e)

def makeEntry (c : Candidate) (tier : Tier) (text : Str) : AssembledEntry :=
  let entry : AssembledEntry := ⟨c.baseUri, c.category, c.score, tier, text, 0⟩
  { entry with tokens := fragmentTokens entry }

def fitsCap (tier : Tier) (tokens : Nat) : Bool := tier = .uri || (tokens : Int) ≤ r.cap

/-! ## The first pass -/

structure Slot where
  candidate : Candidate
  entry : AssembledEntry
  ceiling : Tier
  cost : Int

structure Fill where
  slots : List Slot
  used : Int
  dropped : Nat
  deduped : Nat
  seenBodies : List Int

/-- `SEPARATOR_TOKENS`, before every entry but the first -/
def separator (slots : List Slot) : Int := if slots = [] then 0 else 1

/-- The candidate at one tier, if there is text and room for it. -/
def tryTier (fill : Fill) (c : Candidate) (ceiling tier : Tier) : Option Slot :=
  match r.tierText c tier with
  | none => none
  | some text =>
      let entry := makeEntry c tier text
      let cost := entry.tokens + separator fill.slots
      if !r.fitsCap tier entry.tokens then none
      else if r.budget < fill.used + cost then none
      else some ⟨c, entry, ceiling, cost⟩

def place (fill : Fill) (c : Candidate) : Option Slot :=
  let window := tierWindow c ((normalizeDetail r.detail).forCategory c.category)
  (tiersDownFrom c window.1).findSome? (r.tryTier fill c window.2)

/-- Two pointers without text are told apart by their URIs. -/
def bodyKey (slot : Slot) : Int :=
  r.hash (if slot.entry.text = [] then slot.candidate.baseUri else slot.entry.text)

def step (fill : Fill) (c : Candidate) : Fill :=
  match r.place fill c with
  | none => { fill with dropped := fill.dropped + 1 }
  | some slot =>
      if r.bodyKey slot ∈ fill.seenBodies then { fill with deduped := fill.deduped + 1 }
      else
        { fill with
          slots := fill.slots ++ [slot]
          used := fill.used + slot.cost
          seenBodies := r.bodyKey slot :: fill.seenBodies }

/-- A deeper entry for a slot, if there is one and room for it. -/
def deepen (target : Tier) (respectCap : Bool) (slot : Slot) (used : Int) : Option AssembledEntry :=
  if target.rank ≤ slot.entry.detail.rank then none
  else if slot.ceiling.rank < target.rank then none
  else
    match r.tierText slot.candidate target with
    | none => none
    | some text =>
        let entry := makeEntry slot.candidate target text
        if respectCap && !r.fitsCap target entry.tokens then none
        else if r.budget < used + (entry.tokens - slot.entry.tokens) then none
        else some entry

end Request

namespace Request

variable {r : Request}

/-- A slot holds the text of its tier, and counts its tokens. -/
def Slot.Sound (r : Request) (slot : Slot) : Prop :=
  ∃ text, r.tierText slot.candidate slot.entry.detail = some text ∧
    slot.entry = makeEntry slot.candidate slot.entry.detail text

/-- What the entries and the separators between them cost. -/
def total (slots : List Slot) : Int :=
  (slots.map fun slot => (slot.entry.tokens : Int)).sum + ((slots.length - 1 : Nat) : Int)

structure Filled (r : Request) (slots : List Slot) (used : Int) : Prop where
  sound : ∀ slot ∈ slots, slot.Sound r
  balanced : used = total slots
  within : used ≤ r.budget

theorem total_append_singleton (slots : List Slot) (slot : Slot) :
    total (slots ++ [slot]) = total slots + (slot.entry.tokens + separator slots) := by
  unfold total separator
  cases slots with
  | nil => simp
  | cons s slots =>
      simp
      omega

theorem tryTier_eq_some {fill : Fill} {c : Candidate} {ceiling tier : Tier} {slot : Slot}
    (h : r.tryTier fill c ceiling tier = some slot) :
    slot.candidate = c ∧ slot.Sound r ∧ slot.cost = slot.entry.tokens + separator fill.slots ∧
      fill.used + slot.cost ≤ r.budget := by
  unfold tryTier at h
  split at h
  · cases h
  · next text htext =>
      dsimp only at h
      split at h
      · cases h
      split at h
      · cases h
      · next hroom =>
          cases h
          exact ⟨rfl, ⟨text, htext, rfl⟩, rfl, not_lt.mp hroom⟩

theorem place_eq_some {fill : Fill} {c : Candidate} {slot : Slot} (h : r.place fill c = some slot) :
    slot.candidate = c ∧ slot.Sound r ∧ slot.cost = slot.entry.tokens + separator fill.slots ∧
      fill.used + slot.cost ≤ r.budget := by
  obtain ⟨tier, -, htier⟩ := List.exists_of_findSome?_eq_some h
  exact tryTier_eq_some htier

/-- The bare URI is the last resort of every candidate. -/
theorem uri_mem_tiersDownFrom (c : Candidate) (tier : Tier) : Tier.uri ∈ tiersDownFrom c tier := by
  unfold tiersDownFrom
  dsimp only
  cases tier <;> simp [tierOrder, Tier.rank]
  split <;> simp

/-- The bare-URI form of a candidate -/
def uriEntry (c : Candidate) : AssembledEntry := makeEntry c .uri []

/-- A candidate is dropped only if its bare URI does not fit. -/
theorem place_eq_none {fill : Fill} {c : Candidate} (h : r.place fill c = none) :
    r.budget < fill.used + ((uriEntry c).tokens + separator fill.slots) := by
  have huri := List.findSome?_eq_none_iff.mp h .uri (uri_mem_tiersDownFrom c _)
  unfold tryTier at huri
  simp only [tierText, fitsCap, decide_true, Bool.true_or, Bool.not_true, Bool.false_eq_true,
    if_false] at huri
  split at huri
  · next hfull => exact hfull
  · cases huri

theorem filled_step {fill : Fill} (h : Filled r fill.slots fill.used) (c : Candidate) :
    Filled r (r.step fill c).slots (r.step fill c).used := by
  unfold step
  split
  · exact h
  · next slot hslot =>
      split
      · exact h
      · obtain ⟨-, hsound, hcost, hroom⟩ := place_eq_some hslot
        refine ⟨fun s hs => ?_, ?_, hroom⟩
        · rcases List.mem_append.mp hs with hs | hs
          · exact h.sound s hs
          · rw [List.mem_singleton] at hs
            rw [hs]
            exact hsound
        · show fill.used + slot.cost = total (fill.slots ++ [slot])
          rw [total_append_singleton, ← hcost, h.balanced]

inductive Outcome
  | kept (first : AssembledEntry)
  /-- what it would show is shown already -/
  | deduped (first : AssembledEntry)
  | dropped
  deriving DecidableEq

structure Turn where
  candidate : Candidate
  outcome : Outcome
  deriving DecidableEq

def Turn.placed? : Turn → Option (Candidate × AssembledEntry)
  | ⟨c, .kept first⟩ => some (c, first)
  | ⟨_, .deduped _⟩ => none
  | ⟨_, .dropped⟩ => none

def Turn.isDeduped : Turn → Bool
  | ⟨_, .deduped _⟩ => true
  | _ => false

def Turn.isDropped (turn : Turn) : Bool := turn.outcome = .dropped

def placedBy (turns : List Turn) : List (Candidate × AssembledEntry) := turns.filterMap Turn.placed?

/-- What the entries placed so far cost, and what a separator would -/
def spent (turns : List Turn) : Int :=
  ((placedBy turns).map fun p => (p.2.tokens : Int)).sum +
    (((placedBy turns).length - 1 : Nat) : Int)

def gap (turns : List Turn) : Int := if placedBy turns = [] then 0 else 1

/-- The entry shows the candidate at its tier. -/
structure Presents (r : Request) (c : Candidate) (e : AssembledEntry) : Prop where
  uri : e.uri = c.baseUri
  category : e.category = c.category
  score : e.score = c.score
  text : r.tierText c e.detail = some e.text
  tokens : e.tokens = fragmentTokens e

/-- What is compared to leave out repetitions -/
def injected (c : Candidate) (e : AssembledEntry) : Str := if e.text = [] then c.baseUri else e.text

inductive Course (r : Request) : List Turn → Prop
  | start : Course r []
  | kept {past : List Turn} {c : Candidate} {first : AssembledEntry} (h : Course r past)
      (hfirst : Presents r c first) (hroom : spent past + (first.tokens + gap past) ≤ r.budget) :
      Course r (past ++ [⟨c, .kept first⟩])
  | deduped {past : List Turn} {c d : Candidate} {first e : AssembledEntry} (h : Course r past)
      (hfirst : Presents r c first) (hplaced : (d, e) ∈ placedBy past)
      (hsame : r.hash (injected d e) = r.hash (injected c first)) :
      Course r (past ++ [⟨c, .deduped first⟩])
  | dropped {past : List Turn} {c : Candidate} (h : Course r past)
      (hfull : r.budget < spent past + ((uriEntry c).tokens + gap past)) :
      Course r (past ++ [⟨c, .dropped⟩])

theorem fragmentTokens_makeEntry (c : Candidate) (tier : Tier) (text : Str) :
    (makeEntry c tier text).tokens = fragmentTokens (makeEntry c tier text) := by
  unfold makeEntry fragmentTokens
  rw [renderEntry_tokens]

theorem Slot.Sound.presents {slot : Slot} (h : slot.Sound r) :
    Presents r slot.candidate slot.entry := by
  obtain ⟨text, htext, hentry⟩ := h
  rw [hentry]
  exact ⟨rfl, rfl, rfl, htext, fragmentTokens_makeEntry ..⟩

/-- The books of the first pass agree with its course. -/
structure Recorded (r : Request) (turns : List Turn) (fill : Fill) : Prop where
  course : Course r turns
  filled : Filled r fill.slots fill.used
  slots : fill.slots.map (fun slot => (slot.candidate, slot.entry)) = placedBy turns
  dropped : fill.dropped = turns.countP Turn.isDropped
  deduped : fill.deduped = turns.countP Turn.isDeduped
  seen : ∀ key ∈ fill.seenBodies, ∃ slot ∈ fill.slots, r.bodyKey slot = key

theorem Recorded.used_eq {turns : List Turn} {fill : Fill} (h : Recorded r turns fill) :
    fill.used = spent turns := by
  rw [h.filled.balanced, total, spent, ← h.slots, List.map_map, List.length_map]
  rfl

theorem Recorded.separator_eq {turns : List Turn} {fill : Fill} (h : Recorded r turns fill) :
    separator fill.slots = gap turns := by
  rw [separator, gap, ← h.slots]
  simp only [List.map_eq_nil_iff]

theorem placedBy_concat (turns : List Turn) (turn : Turn) :
    placedBy (turns ++ [turn]) = placedBy turns ++ turn.placed?.toList := by
  rw [placedBy, placedBy, List.filterMap_append]
  cases h : turn.placed? <;> simp [h]

theorem countP_concat (p : Turn → Bool) (turns : List Turn) (turn : Turn) :
    (turns ++ [turn]).countP p = turns.countP p + if p turn then 1 else 0 := by
  rw [List.countP_append, List.countP_singleton]

theorem Recorded.step {turns : List Turn} {fill : Fill} (h : Recorded r turns fill)
    (c : Candidate) :
    ∃ outcome, Recorded r (turns ++ [⟨c, outcome⟩]) (r.step fill c) := by
  have hfilled := filled_step h.filled c
  unfold Request.step at hfilled ⊢
  cases hplace : r.place fill c with
  | none =>
      rw [hplace] at hfilled
      have hfull := place_eq_none hplace
      rw [h.used_eq, h.separator_eq] at hfull
      refine ⟨.dropped, .dropped h.course hfull, hfilled, ?_, ?_, ?_, h.seen⟩
      · rw [placedBy_concat]
        exact h.slots.trans (List.append_nil _).symm
      · rw [countP_concat, ← h.dropped]
        rfl
      · rw [countP_concat, ← h.deduped]
        rfl
  | some slot =>
      rw [hplace] at hfilled
      obtain ⟨rfl, hsound, hcost, hroom⟩ := place_eq_some hplace
      dsimp only at hfilled ⊢
      by_cases hseen : r.bodyKey slot ∈ fill.seenBodies
      · rw [if_pos hseen] at hfilled ⊢
        obtain ⟨other, hother, hsame⟩ := h.seen _ hseen
        have hplaced : (other.candidate, other.entry) ∈ placedBy turns :=
          h.slots ▸ List.mem_map_of_mem hother
        refine ⟨.deduped slot.entry, .deduped h.course hsound.presents hplaced hsame, hfilled, ?_,
          ?_, ?_, h.seen⟩
        · rw [placedBy_concat]
          exact h.slots.trans (List.append_nil _).symm
        · rw [countP_concat, ← h.dropped]
          rfl
        · rw [countP_concat, ← h.deduped]
          rfl
      · rw [if_neg hseen] at hfilled ⊢
        rw [hcost, h.used_eq, h.separator_eq] at hroom
        refine ⟨.kept slot.entry, .kept h.course hsound.presents hroom, hfilled, ?_, ?_, ?_, ?_⟩
        · rw [placedBy_concat, ← h.slots, List.map_append]
          rfl
        · rw [countP_concat, ← h.dropped]
          rfl
        · rw [countP_concat, ← h.deduped]
          rfl
        · intro key hkey
          rcases List.mem_cons.mp hkey with rfl | hkey
          · exact ⟨slot, List.mem_append_right _ List.mem_cons_self, rfl⟩
          · obtain ⟨other, hother, hsame⟩ := h.seen key hkey
            exact ⟨other, List.mem_append_left _ hother, hsame⟩

end Request

namespace Sample

def event : Candidate :=
  ⟨"viking://user/memories/events/a.md".toList, "events".toList, .finite false 48, [], false⟩

def resource : Candidate :=
  ⟨"viking://resources/b".toList, "resources".toList, .finite false 41, "about b".toList, false⟩

def resourceAgain : Candidate := { resource with baseUri := "viking://resources/c".toList }

def far : Candidate :=
  { resource with baseUri := "viking://resources/a/long/way/down/the/tree/to/d".toList }

/-- A hash without collisions -/
def textKey : Str → Nat
  | [] => 0
  | c :: s => c.toNat + 1 + 1114113 * textKey s

/-- Room for the event at full depth and for one resource; the second has the same abstract,
and the URI of the third is too long. -/
def request : Request where
  candidates := [event, resource, resourceAgain, far]
  contents uri := if uri = event.baseUri then "# Summary\nshort\n# Log\nlong".toList else []
  detail := .scalar none
  maxTokens := 82
  overviewFromContent _ _ := "short".toList
  hash text := textKey text

end Sample

end OpenViking.Context
