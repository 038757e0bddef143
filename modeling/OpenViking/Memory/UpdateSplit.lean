/-
# `OpenViking.Memory.UpdateSplit` — dividing one memory update

`StreamingMemoryUpdater.submit` divides a request in two steps.  Operations of add-only types go
into one request that is applied at once (`_split_append_only_request`); what remains is cloned
per URI and grouped by peer and memory type (`split_request_by_merge_group`), one request for
each group.  The links that do not go with the first request are applied when the groups have
finished, so not at all when there is no group.

`Lossless` says what the division should keep, and `lossless_iff` when it does.  No operation
and no delete is lost, ever; but a link can fall between the two divisions, the request for
operations without URIs holds all kinds of them under one key, and the clones of an operation
with URIs of several peers share the group of one of them.
-/
import OpenViking.Lib.Dict
import OpenViking.Lib.Text
import Mathlib.Data.List.Perm.Basic

namespace OpenViking.Memory

open OpenViking.Lib

namespace UpdateSplit

/-- A memory file: what the grouping reads, and the rest of it -/
structure MemoryFile (α : Type) where
  uri : Option Str
  memoryType : Option Str
  /-- `extra_fields["peer_id"]` -/
  peerId : Option Str
  rest : α
  deriving DecidableEq

structure ResolvedOperation (α : Type) where
  oldMemoryFileContent : Option (MemoryFile α)
  /-- `memory_fields["peer_id"]` -/
  peerId : Option Str
  memoryType : Str
  uris : List Str
  /-- The other memory fields, the page id, the source and so on -/
  rest : α
  deriving DecidableEq

structure StoredLink (α : Type) where
  fromUri : Str
  toUri : Str
  rest : α
  deriving DecidableEq

structure ResolvedOperations (α : Type) where
  upsertOperations : List (ResolvedOperation α)
  deleteFileContents : List (MemoryFile α)
  errors : List Str
  resolvedLinks : List (StoredLink α)
  deleteReplacements : Dict Str Str

structure MergeGroupKey where
  peerId : Option Str
  memoryType : Str
  deriving DecidableEq

variable {α : Type}

-- `safe_peer_id`: a usable peer id, or none; and the types whose mode is "add_only"
variable (safePeerId : Str → Option Str) (addOnly : Str → Bool)

/-! ## Peers -/

/-- The match of `/peers/([^/]+)/memories/` at the start of a text -/
def peerMatch (s : Str) : Option Str :=
  if "/peers/".toList.isPrefixOf s then
    let rest := s.drop "/peers/".length
    let name := rest.takeWhile (· ≠ '/')
    if name ≠ [] ∧ "/memories/".toList.isPrefixOf (rest.dropWhile (· ≠ '/')) then some name
    else none
  else none

/-- The first match in a text -/
def searchPeer : Str → Option Str
  | [] => none
  | c :: s => (peerMatch (c :: s)).or (searchPeer s)

/-- A value that is not empty -/
def nonEmpty (s : Option Str) : Option Str := s.filter (· ≠ [])

def peerIdFromUri (uri : Option Str) : Option Str :=
  (nonEmpty uri).bind fun uri => (searchPeer uri).bind safePeerId

def peerIdForMemoryFile (file : MemoryFile α) : Option Str :=
  (nonEmpty (file.peerId.bind safePeerId)).or (peerIdFromUri safePeerId file.uri)

/-- The peer of an old file, as far as it decides the peer of an operation -/
def oldPeerId (file : Option (MemoryFile α)) : Option Str :=
  match file with
  | none => none
  | some file =>
      (nonEmpty (file.peerId.bind safePeerId)).or (nonEmpty (peerIdFromUri safePeerId file.uri))

def peerIdForOperation (op : ResolvedOperation α) : Option Str :=
  ((nonEmpty (op.peerId.bind safePeerId)).or (oldPeerId safePeerId op.oldMemoryFileContent)).or
    (op.uris.findSome? fun uri => nonEmpty (peerIdFromUri safePeerId (some uri)))

/-! ## The first division -/

def isAppendOnly (op : ResolvedOperation α) : Bool := op.uris ≠ [] && addOnly op.memoryType

/-- The URIs of some operations, without empty ones -/
def operationUris (ops : List (ResolvedOperation α)) : List Str :=
  (ops.flatMap ResolvedOperation.uris).filter (· ≠ [])

def StoredLink.touches (link : StoredLink α) (uris : List Str) : Bool :=
  link.fromUri ∈ uris || link.toUri ∈ uris

/-- Whether a link goes with the append-only operations -/
def goesWithAppend (appendOps mergeOps : List (ResolvedOperation α)) (link : StoredLink α) : Bool :=
  link.touches (operationUris appendOps) && !link.touches (operationUris mergeOps)

def splitAppendOnlyRequest (operations : ResolvedOperations α) :
    Option (ResolvedOperations α) × Option (ResolvedOperations α) :=
  let appendOps := operations.upsertOperations.filter (isAppendOnly addOnly)
  let mergeOps := operations.upsertOperations.filter fun op => !isAppendOnly addOnly op
  let appendLinks := operations.resolvedLinks.filter (goesWithAppend appendOps mergeOps)
  let mergeLinks := operations.resolvedLinks.filter fun link =>
    !goesWithAppend appendOps mergeOps link
  (if appendOps ≠ [] then
      some { upsertOperations := appendOps, deleteFileContents := [], errors := [],
             resolvedLinks := appendLinks, deleteReplacements := Dict.empty }
    else none,
    if mergeOps ≠ [] ∨ operations.deleteFileContents ≠ [] ∨ operations.errors ≠ [] then
      some { operations with upsertOperations := mergeOps, resolvedLinks := mergeLinks }
    else none)

/-! ## The second division -/

def cloneOperationForUri (op : ResolvedOperation α) (uri : Str) : ResolvedOperation α :=
  { op with
    uris := [uri]
    oldMemoryFileContent := op.oldMemoryFileContent.filter fun file =>
      file.uri = none ∨ file.uri = some uri }

/-- The clones of the operations that have URIs, each with the key of its group -/
def keyedUpserts (ops : List (ResolvedOperation α)) : List (MergeGroupKey × ResolvedOperation α) :=
  ops.flatMap fun op => op.uris.map fun uri =>
    (⟨peerIdForOperation safePeerId op, op.memoryType⟩, cloneOperationForUri op uri)

def keyedDeletes (files : List (MemoryFile α)) : List (MergeGroupKey × MemoryFile α) :=
  files.map fun file =>
    (⟨peerIdForMemoryFile safePeerId file, file.memoryType.getD []⟩, file)

/-- `groups.setdefault(key, []).append(item)` for every item -/
def groupItems {β : Type} (items : List (MergeGroupKey × β)) : Dict MergeGroupKey (List β) :=
  (Dict.empty : Dict MergeGroupKey (List β)).upserts Prod.fst
    (fun item group => group.getD [] ++ [item.2]) items

/-- The replacements of the deletes of a group -/
def groupReplacements (replacements : Dict Str Str) (files : List (MemoryFile α)) : Dict Str Str :=
  Dict.upserts Prod.fst (fun entry _ => entry.2) Dict.empty
    (files.filterMap fun file =>
      (nonEmpty file.uri).bind fun uri =>
        (nonEmpty (replacements.get uri)).map fun replacement => (uri, replacement))

def splitRequestByMergeGroup (operations : ResolvedOperations α) :
    List (MergeGroupKey × ResolvedOperations α) :=
  let upsertGroups := groupItems (keyedUpserts safePeerId operations.upsertOperations)
  let deleteGroups := groupItems (keyedDeletes safePeerId operations.deleteFileContents)
  let groupKeys := upsertGroups.keys ++ deleteGroups.keys.filter (· ∉ upsertGroups.keys)
  let passthrough := operations.upsertOperations.filter (·.uris = [])
  groupKeys.map (fun key =>
      let groupDeletes := (deleteGroups.get key).getD []
      (key,
        { upsertOperations := (upsertGroups.get key).getD []
          deleteFileContents := groupDeletes
          errors := operations.errors
          resolvedLinks := []
          deleteReplacements := groupReplacements operations.deleteReplacements groupDeletes })) ++
    if passthrough ≠ [] then
      [(⟨none, []⟩,
        { upsertOperations := passthrough, deleteFileContents := [], errors := operations.errors,
          resolvedLinks := [], deleteReplacements := Dict.empty })]
    else []

/-! ## What is submitted -/

/-- The parts of a request, and the links that are applied when the groups have finished -/
structure Parts (α : Type) where
  append : Option (ResolvedOperations α)
  groups : List (MergeGroupKey × ResolvedOperations α)
  postLinks : List (StoredLink α)

/-- `submit`, as far as the division goes -/
def submitParts (operations : ResolvedOperations α) : Parts α :=
  match splitAppendOnlyRequest addOnly operations with
  | (append, none) => ⟨append, [], []⟩
  | (append, some merge) =>
      let groups := splitRequestByMergeGroup safePeerId merge
      if groups = [] then ⟨append, [], []⟩ else ⟨append, groups, merge.resolvedLinks⟩

def Parts.all (parts : Parts α) : List (ResolvedOperations α) :=
  parts.append.toList ++ parts.groups.map Prod.snd

/-- An operation and one of its URIs, or an operation without URIs; an operation is told by
what a clone keeps of it -/
abbrev Pair (α : Type) := (Option Str × Str × α) × Option Str

def ResolvedOperation.pairs (op : ResolvedOperation α) : List (Pair α) :=
  if op.uris = [] then [((op.peerId, op.memoryType, op.rest), none)]
  else op.uris.map fun uri => ((op.peerId, op.memoryType, op.rest), some uri)

def ResolvedOperations.pairs (operations : ResolvedOperations α) : List (Pair α) :=
  operations.upsertOperations.flatMap ResolvedOperation.pairs

/-- What the division should keep.  `Perm` counts: with operations that can be told apart,
every pair is in exactly one part, once, and so is every delete. -/
structure Lossless (operations : ResolvedOperations α) : Prop where
  pairs : ((submitParts safePeerId addOnly operations).all.flatMap ResolvedOperations.pairs).Perm
    operations.pairs
  deletes : ((submitParts safePeerId addOnly operations).all.flatMap
    ResolvedOperations.deleteFileContents).Perm operations.deleteFileContents
  replacements : ∀ part ∈ (submitParts safePeerId addOnly operations).all,
    ∀ file ∈ part.deleteFileContents, ∀ uri, file.uri = some uri →
      part.deleteReplacements.get uri = operations.deleteReplacements.get uri
  groups : ∀ group ∈ (submitParts safePeerId addOnly operations).groups,
    (∀ op ∈ group.2.upsertOperations,
      group.1 = ⟨peerIdForOperation safePeerId op, op.memoryType⟩) ∧
    ∀ file ∈ group.2.deleteFileContents,
      group.1 = ⟨peerIdForMemoryFile safePeerId file, file.memoryType.getD []⟩
  links : ∀ link ∈ operations.resolvedLinks,
    (∃ part, (submitParts safePeerId addOnly operations).append = some part ∧
      link ∈ part.resolvedLinks) ∨ link ∈ (submitParts safePeerId addOnly operations).postLinks

/-- When it does -/
structure Divisible (operations : ResolvedOperations α) : Prop where
  /-- No delete has an empty URI with a replacement, or an empty replacement. -/
  replacements : ∀ file ∈ operations.deleteFileContents, ∀ uri replacement, file.uri = some uri →
    operations.deleteReplacements.get uri = some replacement → uri ≠ [] ∧ replacement ≠ []
  /-- The clones of an operation have its peer. -/
  peers : ∀ op ∈ operations.upsertOperations, isAppendOnly addOnly op = false → ∀ uri ∈ op.uris,
    peerIdForOperation safePeerId (cloneOperationForUri op uri) = peerIdForOperation safePeerId op
  /-- An operation without URIs has no peer and no type. -/
  unresolved : ∀ op ∈ operations.upsertOperations, op.uris = [] →
    peerIdForOperation safePeerId op = none ∧ op.memoryType = []
  /-- There is a delete or an operation that is merged, or every link touches an append-only
  operation. -/
  links : operations.deleteFileContents ≠ [] ∨
    (∃ op ∈ operations.upsertOperations, isAppendOnly addOnly op = false) ∨
    ∀ link ∈ operations.resolvedLinks,
      link.touches (operationUris operations.upsertOperations) = true

/-! ## Grouping -/

/-- A list is its groups, in any order of the keys. -/
theorem flatMap_filter_perm {β κ : Type} [DecidableEq κ] {f : β → κ} {keys : List κ} {l : List β}
    (hnodup : keys.Nodup) (hkeys : ∀ b ∈ l, f b ∈ keys) :
    (keys.flatMap fun k => l.filter (f · = k)).Perm l := by
  induction keys generalizing l with
  | nil =>
      rw [List.eq_nil_iff_forall_not_mem.mpr fun b hb => List.not_mem_nil (hkeys b hb)]
      exact List.Perm.refl _
  | cons k keys ih =>
      rw [List.nodup_cons] at hnodup
      rw [List.flatMap_cons]
      -- the other groups are those of the list without this one
      have hothers : (keys.flatMap fun k' => l.filter (f · = k')) =
          keys.flatMap fun k' => (l.filter fun b => !decide (f b = k)).filter (f · = k') := by
        refine List.flatMap_congr fun k' hk' => ?_
        rw [List.filter_filter]
        refine List.filter_congr fun b _ => ?_
        by_cases heq : f b = k'
        · have hne : f b ≠ k := fun h => hnodup.1 (by rw [← h, heq]; exact hk')
          simp [heq, heq ▸ hne]
        · simp [heq]
      rw [hothers]
      have hrest : (keys.flatMap fun k' =>
        (l.filter fun b => !decide (f b = k)).filter (f · = k')).Perm
          (l.filter fun b => !decide (f b = k)) := by
        refine ih hnodup.2 fun b hb => ?_
        obtain ⟨hmem, hne⟩ := List.mem_filter.mp hb
        rw [Bool.not_eq_true', decide_eq_false_iff_not] at hne
        exact (List.mem_cons.mp (hkeys b hmem)).resolve_left hne
      exact (List.Perm.append_left _ hrest).trans (List.filter_append_perm _ l)

section Grouping

variable {β : Type} (items : List (MergeGroupKey × β))

theorem foldl_append_getD (l : List (MergeGroupKey × β)) (o : Option (List β)) :
    ((l.foldl (fun o item => some (o.getD [] ++ [item.2])) o).getD []) =
      o.getD [] ++ l.map Prod.snd := by
  induction l generalizing o with
  | nil => rw [List.map_nil, List.append_nil]; rfl
  | cons item l ih =>
      rw [List.foldl_cons, ih, List.map_cons, Option.getD_some, List.append_assoc]
      rfl

/-- A group has the items with its key, in order. -/
theorem groupItems_get (key : MergeGroupKey) :
    ((groupItems items).get key).getD [] = (items.filter (·.1 = key)).map Prod.snd := by
  rw [groupItems, Dict.get_upserts]
  exact foldl_append_getD _ _

theorem mem_keys_groupItems {key : MergeGroupKey} :
    key ∈ (groupItems items).keys ↔ ∃ item ∈ items, item.1 = key := by
  rw [groupItems, Dict.mem_keys_upserts]
  exact or_iff_right List.not_mem_nil

/-- All groups together, for a list of keys that has all of them -/
theorem groupItems_perm {keys : List MergeGroupKey} (hnodup : keys.Nodup)
    (hkeys : ∀ key ∈ (groupItems items).keys, key ∈ keys) :
    (keys.flatMap fun key => ((groupItems items).get key).getD []).Perm (items.map Prod.snd) := by
  have hflat : (keys.flatMap fun key => ((groupItems items).get key).getD []) =
      (keys.flatMap fun key => items.filter (·.1 = key)).map Prod.snd := by
    rw [List.map_flatMap]
    exact List.flatMap_congr fun key _ => groupItems_get items key
  rw [hflat]
  refine (flatMap_filter_perm hnodup fun item hitem => ?_).map _
  exact hkeys _ ((mem_keys_groupItems items).mpr ⟨item, hitem, rfl⟩)

theorem mem_group {key : MergeGroupKey} {b : β} :
    b ∈ ((groupItems items).get key).getD [] ↔ (key, b) ∈ items := by
  rw [groupItems_get, List.mem_map]
  constructor
  · rintro ⟨⟨key', b'⟩, hmem, rfl⟩
    obtain ⟨hmem, hkey⟩ := List.mem_filter.mp hmem
    have hkey : key' = key := of_decide_eq_true hkey
    rw [← hkey]
    exact hmem
  · intro hmem
    exact ⟨(key, b), List.mem_filter.mpr ⟨hmem, decide_eq_true rfl⟩, rfl⟩

end Grouping

/-! ## The parts -/

/-- The operations of the second division -/
def mergeOperations (operations : ResolvedOperations α) : ResolvedOperations α :=
  { operations with
    upsertOperations := operations.upsertOperations.filter fun op => !isAppendOnly addOnly op
    resolvedLinks := operations.resolvedLinks.filter fun link =>
      !goesWithAppend (operations.upsertOperations.filter (isAppendOnly addOnly))
        (operations.upsertOperations.filter fun op => !isAppendOnly addOnly op) link }

/-- The keys of the groups -/
def groupKeys (operations : ResolvedOperations α) : List MergeGroupKey :=
  (groupItems (keyedUpserts safePeerId operations.upsertOperations)).keys ++
    (groupItems (keyedDeletes safePeerId operations.deleteFileContents)).keys.filter
      (· ∉ (groupItems (keyedUpserts safePeerId operations.upsertOperations)).keys)

/-- The request of a group -/
def groupRequest (operations : ResolvedOperations α) (key : MergeGroupKey) :
    ResolvedOperations α where
  upsertOperations :=
    ((groupItems (keyedUpserts safePeerId operations.upsertOperations)).get key).getD []
  deleteFileContents :=
    ((groupItems (keyedDeletes safePeerId operations.deleteFileContents)).get key).getD []
  errors := operations.errors
  resolvedLinks := []
  deleteReplacements := groupReplacements operations.deleteReplacements
    (((groupItems (keyedDeletes safePeerId operations.deleteFileContents)).get key).getD [])

/-- The request of the operations without URIs -/
def passthroughRequest (operations : ResolvedOperations α) : ResolvedOperations α where
  upsertOperations := operations.upsertOperations.filter (·.uris = [])
  deleteFileContents := []
  errors := operations.errors
  resolvedLinks := []
  deleteReplacements := Dict.empty

variable {safePeerId addOnly}

theorem split_eq (operations : ResolvedOperations α) :
    splitRequestByMergeGroup safePeerId operations =
      (groupKeys safePeerId operations).map
          (fun key => (key, groupRequest safePeerId operations key)) ++
        if operations.upsertOperations.filter (·.uris = []) ≠ [] then
          [(⟨none, []⟩, passthroughRequest operations)] else [] := rfl

theorem nodup_groupKeys (operations : ResolvedOperations α) :
    (groupKeys safePeerId operations).Nodup := by
  refine List.Nodup.append (Dict.nodup _) ((Dict.nodup _).filter _) ?_
  intro key hleft hright
  exact of_decide_eq_true (List.mem_filter.mp hright).2 hleft

theorem mem_groupKeys {operations : ResolvedOperations α} {key : MergeGroupKey} :
    key ∈ groupKeys safePeerId operations ↔
      key ∈ (groupItems (keyedUpserts safePeerId operations.upsertOperations)).keys ∨
        key ∈ (groupItems (keyedDeletes safePeerId operations.deleteFileContents)).keys := by
  rw [groupKeys, List.mem_append, List.mem_filter, decide_eq_true_eq]
  by_cases h : key ∈ (groupItems (keyedUpserts safePeerId operations.upsertOperations)).keys
  · exact iff_of_true (.inl h) (.inl h)
  · simp [h]

/-- There is no group only if there is nothing to put in one. -/
theorem split_eq_nil_iff (operations : ResolvedOperations α) :
    splitRequestByMergeGroup safePeerId operations = [] ↔
      operations.upsertOperations = [] ∧ operations.deleteFileContents = [] := by
  constructor
  · intro h
    rw [split_eq, List.append_eq_nil_iff, List.map_eq_nil_iff] at h
    have hnone : ∀ key, key ∉ groupKeys safePeerId operations := by
      rw [h.1]
      exact fun key => List.not_mem_nil
    constructor
    · refine List.eq_nil_iff_forall_not_mem.mpr fun op hop => ?_
      cases huris : op.uris with
      | nil =>
          have hmem : op ∈ operations.upsertOperations.filter (·.uris = []) :=
            List.mem_filter.mpr ⟨hop, decide_eq_true huris⟩
          rw [if_pos (List.ne_nil_of_mem hmem)] at h
          cases h.2
      | cons uri uris =>
          refine hnone ⟨peerIdForOperation safePeerId op, op.memoryType⟩
            (mem_groupKeys.mpr (.inl ?_))
          refine (mem_keys_groupItems _).mpr ⟨(_, cloneOperationForUri op uri), ?_, rfl⟩
          refine List.mem_flatMap.mpr ⟨op, hop, List.mem_map.mpr ⟨uri, ?_, rfl⟩⟩
          rw [huris]
          exact List.mem_cons_self
    · refine List.eq_nil_iff_forall_not_mem.mpr fun file hfile => ?_
      refine hnone ⟨peerIdForMemoryFile safePeerId file, file.memoryType.getD []⟩
        (mem_groupKeys.mpr (.inr ?_))
      exact (mem_keys_groupItems _).mpr ⟨(_, file), List.mem_map.mpr ⟨file, hfile, rfl⟩, rfl⟩
  · rintro ⟨hupserts, hdeletes⟩
    have hkeys : groupKeys safePeerId operations = [] := by
      rw [groupKeys, hupserts, hdeletes]
      rfl
    rw [split_eq, hkeys, hupserts]
    rfl

/-- Nothing is merged. -/
theorem mergeOperations_eq_nil {operations : ResolvedOperations α}
    (h : ¬((mergeOperations addOnly operations).upsertOperations ≠ [] ∨
      operations.deleteFileContents ≠ [] ∨ operations.errors ≠ [])) :
    splitRequestByMergeGroup safePeerId (mergeOperations addOnly operations) = [] := by
  simp only [not_or, not_not] at h
  exact (split_eq_nil_iff _).mpr ⟨h.1, h.2.1⟩

theorem submitParts_eq (operations : ResolvedOperations α) :
    submitParts safePeerId addOnly operations =
      ⟨(splitAppendOnlyRequest addOnly operations).1,
        splitRequestByMergeGroup safePeerId (mergeOperations addOnly operations),
        if splitRequestByMergeGroup safePeerId (mergeOperations addOnly operations) = [] then []
        else (mergeOperations addOnly operations).resolvedLinks⟩ := by
  have hmerge : (splitAppendOnlyRequest addOnly operations).2 =
      if (mergeOperations addOnly operations).upsertOperations ≠ [] ∨
          operations.deleteFileContents ≠ [] ∨ operations.errors ≠ [] then
        some (mergeOperations addOnly operations) else none := rfl
  rw [submitParts]
  split
  · next append heq =>
      rw [heq] at hmerge
      have hnot : ¬((mergeOperations addOnly operations).upsertOperations ≠ [] ∨
          operations.deleteFileContents ≠ [] ∨ operations.errors ≠ []) := by
        intro hcond
        rw [if_pos hcond] at hmerge
        cases hmerge
      rw [mergeOperations_eq_nil hnot, heq, if_pos rfl]
  · next append merge heq =>
      rw [heq] at hmerge
      have hsame : merge = mergeOperations addOnly operations := by
        split at hmerge
        · exact Option.some.inj hmerge
        · cases hmerge
      rw [hsame, heq]
      simp only
      split
      · next hnil => rw [hnil]
      · rfl

/-! ## Operations and deletes -/

/-- The pairs of the groups and of the passthrough request are those of the operations. -/
theorem split_pairs_perm (operations : ResolvedOperations α) :
    (((splitRequestByMergeGroup safePeerId operations).map Prod.snd).flatMap
      ResolvedOperations.pairs).Perm operations.pairs := by
  -- the pairs with a URI and those without
  let withUri : ResolvedOperation α → List (Pair α) := fun op =>
    op.uris.map fun uri => ((op.peerId, op.memoryType, op.rest), some uri)
  let without : ResolvedOperation α → List (Pair α) := fun op =>
    if op.uris = [] then [((op.peerId, op.memoryType, op.rest), none)] else []
  have hboth : ∀ op : ResolvedOperation α, op.pairs = withUri op ++ without op := by
    intro op
    rw [ResolvedOperation.pairs]
    cases huris : op.uris with
    | nil => simp [withUri, without, huris]
    | cons uri uris => simp [withUri, without, huris]
  have hgroups : (((groupKeys safePeerId operations).map
      (fun key => (key, groupRequest safePeerId operations key))).map Prod.snd).flatMap
        ResolvedOperations.pairs |>.Perm (operations.upsertOperations.flatMap withUri) := by
    have hflat : (((groupKeys safePeerId operations).map
        (fun key => (key, groupRequest safePeerId operations key))).map Prod.snd).flatMap
          ResolvedOperations.pairs =
        ((groupKeys safePeerId operations).flatMap fun key =>
          ((groupItems (keyedUpserts safePeerId operations.upsertOperations)).get key).getD
            []).flatMap ResolvedOperation.pairs := by
      rw [List.map_map, List.flatMap_map, List.flatMap_assoc]
      rfl
    rw [hflat]
    refine ((groupItems_perm _ (nodup_groupKeys operations) fun key hkey =>
      mem_groupKeys.mpr (.inl hkey)).flatMap_right _).trans ?_
    refine List.Perm.of_eq ?_
    rw [keyedUpserts, List.map_flatMap, List.flatMap_assoc]
    refine List.flatMap_congr fun op _ => ?_
    rw [List.map_map, List.flatMap_map]
    exact List.flatMap_pure_eq_map _ _
  have hpass : ((if operations.upsertOperations.filter (·.uris = []) ≠ [] then
      [((⟨none, []⟩ : MergeGroupKey), passthroughRequest operations)] else []).map
        Prod.snd).flatMap ResolvedOperations.pairs =
          operations.upsertOperations.flatMap without := by
    have hfilter : ∀ ops : List (ResolvedOperation α),
        (ops.filter (·.uris = [])).flatMap ResolvedOperation.pairs = ops.flatMap without := by
      intro ops
      induction ops with
      | nil => rfl
      | cons op ops ih =>
          rw [List.flatMap_cons, ← ih]
          by_cases huris : op.uris = []
          · rw [List.filter_cons_of_pos (by exact decide_eq_true huris), List.flatMap_cons]
            simp only [ResolvedOperation.pairs, without, if_pos huris]
          · rw [List.filter_cons_of_neg (by rw [decide_eq_true_eq]; exact huris)]
            simp only [without, if_neg huris, List.nil_append]
    rw [← hfilter]
    split
    · exact List.append_nil _
    · next hnil =>
        rw [not_not.mp hnil]
        rfl
  rw [split_eq, List.map_append, List.flatMap_append, hpass, ResolvedOperations.pairs,
    List.flatMap_congr fun op _ => hboth op]
  exact (hgroups.append_right _).trans (List.flatMap_append_perm _ _ _)

theorem split_deletes_perm (operations : ResolvedOperations α) :
    (((splitRequestByMergeGroup safePeerId operations).map Prod.snd).flatMap
      ResolvedOperations.deleteFileContents).Perm operations.deleteFileContents := by
  have hpass : ((if operations.upsertOperations.filter (·.uris = []) ≠ [] then
      [((⟨none, []⟩ : MergeGroupKey), passthroughRequest operations)] else []).map
        Prod.snd).flatMap ResolvedOperations.deleteFileContents = [] := by
    split
    · rfl
    · rfl
  rw [split_eq, List.map_append, List.flatMap_append, hpass, List.append_nil, List.map_map,
    List.flatMap_map]
  refine (groupItems_perm (keyedDeletes safePeerId operations.deleteFileContents)
    (nodup_groupKeys operations) fun key hkey => mem_groupKeys.mpr (.inr hkey)).trans ?_
  rw [keyedDeletes, List.map_map]
  exact List.Perm.of_eq (List.map_id _)

/-- The append-only request has the pairs of the append-only operations, and no delete. -/
theorem append_pairs (operations : ResolvedOperations α) :
    ((splitAppendOnlyRequest addOnly operations).1.toList).flatMap ResolvedOperations.pairs =
      (operations.upsertOperations.filter (isAppendOnly addOnly)).flatMap
        ResolvedOperation.pairs := by
  rw [splitAppendOnlyRequest]
  simp only
  split
  · exact List.append_nil _
  · next hnil =>
      rw [not_not.mp hnil]
      rfl

theorem append_deletes (operations : ResolvedOperations α) :
    ∀ part ∈ (splitAppendOnlyRequest addOnly operations).1, part.deleteFileContents = [] := by
  intro part hpart
  rw [splitAppendOnlyRequest] at hpart
  simp only at hpart
  split at hpart
  · rw [← Option.mem_some.mp hpart]
  · cases hpart

theorem submit_pairs_perm (operations : ResolvedOperations α) :
    ((submitParts safePeerId addOnly operations).all.flatMap ResolvedOperations.pairs).Perm
      operations.pairs := by
  rw [submitParts_eq, Parts.all, List.flatMap_append, append_pairs]
  refine ((split_pairs_perm _).append_left _).trans ?_
  rw [ResolvedOperations.pairs, ← List.flatMap_append]
  exact (List.filter_append_perm _ operations.upsertOperations).flatMap_right _

theorem submit_deletes_perm (operations : ResolvedOperations α) :
    ((submitParts safePeerId addOnly operations).all.flatMap
      ResolvedOperations.deleteFileContents).Perm operations.deleteFileContents := by
  have happend : ((splitAppendOnlyRequest addOnly operations).1.toList).flatMap
      ResolvedOperations.deleteFileContents = [] := by
    rw [List.flatMap_eq_nil_iff]
    intro part hpart
    exact append_deletes operations part (Option.mem_toList.mp hpart)
  rw [submitParts_eq, Parts.all, List.flatMap_append, happend, List.nil_append]
  exact split_deletes_perm _

/-! ## Replacements -/

/-- What a group knows about the replacement of one of its deletes -/
theorem groupReplacements_get {replacements : Dict Str Str} {files : List (MemoryFile α)}
    {file : MemoryFile α} (hfile : file ∈ files) {uri : Str} (huri : file.uri = some uri) :
    (groupReplacements replacements files).get uri =
      if uri = [] then none else nonEmpty (replacements.get uri) := by
  have hentry : ∀ entry ∈ files.filterMap (fun file => (nonEmpty file.uri).bind fun uri =>
      (nonEmpty (replacements.get uri)).map fun replacement => (uri, replacement)),
      entry.1 ≠ [] ∧ nonEmpty (replacements.get entry.1) = some entry.2 := by
    intro entry hentry
    obtain ⟨file', -, heq⟩ := List.mem_filterMap.mp hentry
    obtain ⟨uri', huri', heq⟩ := Option.bind_eq_some_iff.mp heq
    obtain ⟨replacement, hreplacement, rfl⟩ := Option.map_eq_some_iff.mp heq
    exact ⟨of_decide_eq_true (Option.filter_eq_some_iff.mp huri').2, hreplacement⟩
  rw [groupReplacements]
  cases hnone : (if uri = [] then none else nonEmpty (replacements.get uri)) with
  | none =>
      refine (Dict.get_upserts_of_notMem _ fun entry hmem heq => ?_).trans rfl
      obtain ⟨hne, hsome⟩ := hentry entry hmem
      rw [heq] at hne hsome
      rw [if_neg hne, hsome] at hnone
      cases hnone
  | some replacement =>
      have hne : uri ≠ [] := by
        intro hnil
        rw [if_pos hnil] at hnone
        cases hnone
      rw [if_neg hne] at hnone
      have hmem : (uri, replacement) ∈ files.filterMap
        (fun file => (nonEmpty file.uri).bind fun uri =>
          (nonEmpty (replacements.get uri)).map fun replacement => (uri, replacement)) := by
        refine List.mem_filterMap.mpr ⟨file, hfile, ?_⟩
        rw [huri, nonEmpty, Option.filter_some, if_pos (decide_eq_true hne),
          Option.bind_some, hnone]
        rfl
      refine Dict.get_upserts_of_mem (g := Prod.snd) _ hmem ?_
      rintro ⟨uri', replacement'⟩ hmem' heq
      have hsome := (hentry _ hmem').2
      rw [show uri' = uri from heq, hnone] at hsome
      exact (Option.some.inj hsome).symm

theorem groupRequest_get {operations : ResolvedOperations α} {key : MergeGroupKey}
    {file : MemoryFile α}
    (hfile : file ∈ (groupRequest safePeerId operations key).deleteFileContents)
    {uri : Str} (huri : file.uri = some uri) :
    (groupRequest safePeerId operations key).deleteReplacements.get uri =
      if uri = [] then none else nonEmpty (operations.deleteReplacements.get uri) :=
  groupReplacements_get hfile huri

theorem mem_submit_all {operations part : ResolvedOperations α} :
    part ∈ (submitParts safePeerId addOnly operations).all ↔
      part ∈ (splitAppendOnlyRequest addOnly operations).1 ∨
        (∃ key ∈ groupKeys safePeerId (mergeOperations addOnly operations),
          part = groupRequest safePeerId (mergeOperations addOnly operations) key) ∨
        ((mergeOperations addOnly operations).upsertOperations.filter (·.uris = []) ≠ [] ∧
          part = passthroughRequest (mergeOperations addOnly operations)) := by
  rw [submitParts_eq, Parts.all, List.mem_append, Option.mem_toList, split_eq, List.map_append,
    List.mem_append, List.map_map, List.mem_map]
  refine or_congr_right (or_congr ?_ ?_)
  · simp only [Function.comp, eq_comm]
  · split
    · next h => simp [h]
    · next h => simp [h]

theorem replacements_iff (operations : ResolvedOperations α) :
    (∀ part ∈ (submitParts safePeerId addOnly operations).all,
      ∀ file ∈ part.deleteFileContents, ∀ uri, file.uri = some uri →
        part.deleteReplacements.get uri = operations.deleteReplacements.get uri) ↔
      ∀ file ∈ operations.deleteFileContents, ∀ uri replacement, file.uri = some uri →
        operations.deleteReplacements.get uri = some replacement →
        uri ≠ [] ∧ replacement ≠ [] := by
  constructor
  · intro h file hfile uri replacement huri hget
    have hin : file ∈ (submitParts safePeerId addOnly operations).all.flatMap
        ResolvedOperations.deleteFileContents := (submit_deletes_perm operations).mem_iff.mpr hfile
    obtain ⟨part, hpart, hfile'⟩ := List.mem_flatMap.mp hin
    have hsame := h part hpart file hfile' uri huri
    rcases mem_submit_all.mp hpart with happend | ⟨key, -, rfl⟩ | ⟨-, rfl⟩
    · rw [append_deletes operations part happend] at hfile'
      cases hfile'
    · rw [groupRequest_get hfile' huri] at hsame
      change (if uri = [] then none
        else nonEmpty (operations.deleteReplacements.get uri)) = _ at hsame
      rw [hget] at hsame
      split at hsame
      · cases hsame
      · next hne => exact ⟨hne, of_decide_eq_true (Option.filter_eq_some_iff.mp hsame).2⟩
    · cases hfile'
  · intro h part hpart file hfile uri huri
    rcases mem_submit_all.mp hpart with happend | ⟨key, -, rfl⟩ | ⟨-, rfl⟩
    · rw [append_deletes operations part happend] at hfile
      cases hfile
    · have hin : file ∈ operations.deleteFileContents :=
        (submit_deletes_perm operations).mem_iff.mp (List.mem_flatMap.mpr ⟨_, hpart, hfile⟩)
      rw [groupRequest_get hfile huri]
      change (if uri = [] then none else nonEmpty (operations.deleteReplacements.get uri)) = _
      cases hget : operations.deleteReplacements.get uri with
      | none => rw [nonEmpty, Option.filter_none, ite_self]
      | some replacement =>
          obtain ⟨hne, hreplacement⟩ := h file hin uri replacement huri hget
          rw [if_neg hne, nonEmpty, Option.filter_some, if_pos (decide_eq_true hreplacement)]
    · cases hfile

/-! ## Groups and links -/

theorem mem_submit_groups {operations : ResolvedOperations α}
    {group : MergeGroupKey × ResolvedOperations α} :
    group ∈ (submitParts safePeerId addOnly operations).groups ↔
      (∃ key ∈ groupKeys safePeerId (mergeOperations addOnly operations),
          group = (key, groupRequest safePeerId (mergeOperations addOnly operations) key)) ∨
        ((mergeOperations addOnly operations).upsertOperations.filter (·.uris = []) ≠ [] ∧
          group = (⟨none, []⟩, passthroughRequest (mergeOperations addOnly operations))) := by
  rw [submitParts_eq, split_eq, List.mem_append, List.mem_map]
  refine or_congr ?_ ?_
  · simp only [eq_comm]
  · split
    · next h => simp [h]
    · next h => simp [h]

/-- The operations of a group are the clones with its key. -/
theorem mem_group_upserts {operations : ResolvedOperations α} {key : MergeGroupKey}
    {clone : ResolvedOperation α} :
    clone ∈ (groupRequest safePeerId operations key).upsertOperations ↔
      ∃ op ∈ operations.upsertOperations, ∃ uri ∈ op.uris,
        key = ⟨peerIdForOperation safePeerId op, op.memoryType⟩ ∧
          clone = cloneOperationForUri op uri := by
  change clone ∈ ((groupItems (keyedUpserts safePeerId operations.upsertOperations)).get key).getD
    [] ↔ _
  rw [mem_group, keyedUpserts, List.mem_flatMap]
  simp only [List.mem_map, Prod.mk.injEq, eq_comm]

theorem mem_group_deletes {operations : ResolvedOperations α} {key : MergeGroupKey}
    {file : MemoryFile α} :
    file ∈ (groupRequest safePeerId operations key).deleteFileContents ↔
      file ∈ operations.deleteFileContents ∧
        key = ⟨peerIdForMemoryFile safePeerId file, file.memoryType.getD []⟩ := by
  change file ∈ ((groupItems (keyedDeletes safePeerId operations.deleteFileContents)).get key).getD
    [] ↔ _
  rw [mem_group, keyedDeletes, List.mem_map]
  constructor
  · rintro ⟨file', hmem, heq⟩
    rw [Prod.mk.injEq] at heq
    rw [← heq.2, ← heq.1]
    exact ⟨hmem, rfl⟩
  · rintro ⟨hmem, rfl⟩
    exact ⟨file, hmem, rfl⟩

theorem mem_merge_upserts {operations : ResolvedOperations α} {op : ResolvedOperation α} :
    op ∈ (mergeOperations addOnly operations).upsertOperations ↔
      op ∈ operations.upsertOperations ∧ isAppendOnly addOnly op = false := by
  change op ∈ operations.upsertOperations.filter (fun op => !isAppendOnly addOnly op) ↔ _
  rw [List.mem_filter, Bool.not_eq_true']

theorem isAppendOnly_of_no_uris {op : ResolvedOperation α} (h : op.uris = []) :
    isAppendOnly addOnly op = false := by
  simp [isAppendOnly, h]

theorem groups_iff (operations : ResolvedOperations α) :
    (∀ group ∈ (submitParts safePeerId addOnly operations).groups,
      (∀ op ∈ group.2.upsertOperations,
        group.1 = ⟨peerIdForOperation safePeerId op, op.memoryType⟩) ∧
      ∀ file ∈ group.2.deleteFileContents,
        group.1 = ⟨peerIdForMemoryFile safePeerId file, file.memoryType.getD []⟩) ↔
      (∀ op ∈ operations.upsertOperations, isAppendOnly addOnly op = false → ∀ uri ∈ op.uris,
        peerIdForOperation safePeerId (cloneOperationForUri op uri) =
          peerIdForOperation safePeerId op) ∧
      ∀ op ∈ operations.upsertOperations, op.uris = [] →
        peerIdForOperation safePeerId op = none ∧ op.memoryType = [] := by
  constructor
  · intro h
    constructor
    · intro op hop hmerged uri huri
      have hclone : cloneOperationForUri op uri ∈ (groupRequest safePeerId
          (mergeOperations addOnly operations)
          ⟨peerIdForOperation safePeerId op, op.memoryType⟩).upsertOperations :=
        mem_group_upserts.mpr ⟨op, mem_merge_upserts.mpr ⟨hop, hmerged⟩, uri, huri, rfl, rfl⟩
      have hkey : (⟨peerIdForOperation safePeerId op, op.memoryType⟩ : MergeGroupKey) ∈
          groupKeys safePeerId (mergeOperations addOnly operations) := by
        refine mem_groupKeys.mpr (.inl ((mem_keys_groupItems _).mpr ?_))
        exact ⟨_, (mem_group _).mp hclone, rfl⟩
      have hgroup := (h _ (mem_submit_groups.mpr (.inl ⟨_, hkey, rfl⟩))).1 _ hclone
      exact (congrArg MergeGroupKey.peerId hgroup).symm
    · intro op hop huris
      have hpass : op ∈ (mergeOperations addOnly operations).upsertOperations.filter
        (·.uris = []) :=
        List.mem_filter.mpr
          ⟨mem_merge_upserts.mpr ⟨hop, isAppendOnly_of_no_uris huris⟩, decide_eq_true huris⟩
      have hgroup := (h _ (mem_submit_groups.mpr (.inr ⟨List.ne_nil_of_mem hpass, rfl⟩))).1 op hpass
      exact ⟨(congrArg MergeGroupKey.peerId hgroup).symm,
        (congrArg MergeGroupKey.memoryType hgroup).symm⟩
  · rintro ⟨hpeers, hunresolved⟩ group hgroup
    rcases mem_submit_groups.mp hgroup with ⟨key, -, rfl⟩ | ⟨-, rfl⟩
    · constructor
      · intro clone hclone
        obtain ⟨op, hop, uri, huri, rfl, rfl⟩ := mem_group_upserts.mp hclone
        obtain ⟨hop, hmerged⟩ := mem_merge_upserts.mp hop
        rw [hpeers op hop hmerged uri huri]
        rfl
      · intro file hfile
        exact (mem_group_deletes.mp hfile).2
    · constructor
      · intro op hop
        obtain ⟨hop, huris⟩ := List.mem_filter.mp hop
        obtain ⟨hpeer, htype⟩ :=
          hunresolved op (mem_merge_upserts.mp hop).1 (of_decide_eq_true huris)
        rw [hpeer, htype]
      · intro file hfile
        cases hfile

/-- The links of the append-only request -/
theorem mem_append_links {operations : ResolvedOperations α} {link : StoredLink α}
    (hlink : link ∈ operations.resolvedLinks) :
    (∃ part, (splitAppendOnlyRequest addOnly operations).1 = some part ∧
        link ∈ part.resolvedLinks) ↔
      goesWithAppend (operations.upsertOperations.filter (isAppendOnly addOnly))
        (operations.upsertOperations.filter fun op => !isAppendOnly addOnly op) link = true := by
  rw [splitAppendOnlyRequest]
  simp only
  constructor
  · rintro ⟨part, hpart, hmem⟩
    split at hpart
    · rw [← Option.some.inj hpart] at hmem
      exact (List.mem_filter.mp hmem).2
    · cases hpart
  · intro hgoes
    have hne : operations.upsertOperations.filter (isAppendOnly addOnly) ≠ [] := by
      intro hnil
      rw [hnil] at hgoes
      simp [goesWithAppend, StoredLink.touches, operationUris] at hgoes
    rw [if_pos hne]
    exact ⟨_, rfl, List.mem_filter.mpr ⟨hlink, hgoes⟩⟩

theorem mem_post_links {operations : ResolvedOperations α} {link : StoredLink α}
    (hlink : link ∈ operations.resolvedLinks) :
    link ∈ (submitParts safePeerId addOnly operations).postLinks ↔
      (operations.deleteFileContents ≠ [] ∨
        ∃ op ∈ operations.upsertOperations, isAppendOnly addOnly op = false) ∧
      goesWithAppend (operations.upsertOperations.filter (isAppendOnly addOnly))
        (operations.upsertOperations.filter fun op => !isAppendOnly addOnly op) link = false := by
  have hgroups : splitRequestByMergeGroup safePeerId (mergeOperations addOnly operations) ≠ [] ↔
      operations.deleteFileContents ≠ [] ∨
        ∃ op ∈ operations.upsertOperations, isAppendOnly addOnly op = false := by
    rw [Ne, split_eq_nil_iff, not_and_or, or_comm]
    refine or_congr Iff.rfl ?_
    rw [List.eq_nil_iff_forall_not_mem, not_forall]
    simp only [not_not, mem_merge_upserts]
  rw [submitParts_eq, ← hgroups]
  simp only
  split
  · next hnil =>
      refine iff_of_false List.not_mem_nil ?_
      rintro ⟨hne, -⟩
      exact hne hnil
  · next hne =>
      change link ∈ operations.resolvedLinks.filter _ ↔ _
      rw [List.mem_filter, Bool.not_eq_true']
      exact ⟨fun h => ⟨hne, h.2⟩, fun h => ⟨hlink, h.2⟩⟩

/-- With append-only operations alone, the links that touch them go with them. -/
theorem goesWithAppend_of_all {operations : ResolvedOperations α}
    (h : ∀ op ∈ operations.upsertOperations, isAppendOnly addOnly op = true)
    (link : StoredLink α) :
    goesWithAppend (operations.upsertOperations.filter (isAppendOnly addOnly))
        (operations.upsertOperations.filter fun op => !isAppendOnly addOnly op) link =
      link.touches (operationUris operations.upsertOperations) := by
  have hall : operations.upsertOperations.filter (isAppendOnly addOnly) =
      operations.upsertOperations := List.filter_eq_self.mpr h
  have hnone : (operations.upsertOperations.filter fun op => !isAppendOnly addOnly op) = [] :=
    List.filter_eq_nil_iff.mpr fun op hop => by simp [h op hop]
  rw [hall, hnone, goesWithAppend]
  simp [StoredLink.touches, operationUris]

theorem links_iff (operations : ResolvedOperations α) :
    (∀ link ∈ operations.resolvedLinks,
      (∃ part, (submitParts safePeerId addOnly operations).append = some part ∧
        link ∈ part.resolvedLinks) ∨
      link ∈ (submitParts safePeerId addOnly operations).postLinks) ↔
      (operations.deleteFileContents ≠ [] ∨
        (∃ op ∈ operations.upsertOperations, isAppendOnly addOnly op = false) ∨
        ∀ link ∈ operations.resolvedLinks,
          link.touches (operationUris operations.upsertOperations) = true) := by
  have happend : (submitParts safePeerId addOnly operations).append =
      (splitAppendOnlyRequest addOnly operations).1 := by rw [submitParts_eq]
  by_cases hmerged : operations.deleteFileContents ≠ [] ∨
      ∃ op ∈ operations.upsertOperations, isAppendOnly addOnly op = false
  · refine iff_of_true (fun link hlink => ?_) (hmerged.imp_right .inl)
    rw [happend, mem_append_links hlink, mem_post_links hlink]
    cases goesWithAppend (operations.upsertOperations.filter (isAppendOnly addOnly))
        (operations.upsertOperations.filter fun op => !isAppendOnly addOnly op) link with
    | true => exact .inl rfl
    | false => exact .inr ⟨hmerged, rfl⟩
  · have hall : ∀ op ∈ operations.upsertOperations, isAppendOnly addOnly op = true := by
      intro op hop
      by_contra hnot
      exact hmerged (.inr ⟨op, hop, Bool.eq_false_iff.mpr hnot⟩)
    rw [not_or] at hmerged
    rw [or_iff_right hmerged.1, or_iff_right hmerged.2]
    refine forall_congr' fun link => forall_congr' fun hlink => ?_
    rw [happend, mem_append_links hlink, mem_post_links hlink, goesWithAppend_of_all hall]
    constructor
    · rintro (h | ⟨h, -⟩)
      · exact h
      · exact absurd h (not_or.mpr hmerged)
    · exact .inl

variable (safePeerId addOnly) in
/-- The division of a request keeps everything exactly when deletes have proper replacements,
clones have the peer of their operation, operations without URIs have neither peer nor type,
and links have something to go with. -/
theorem lossless_iff (operations : ResolvedOperations α) :
    Lossless safePeerId addOnly operations ↔ Divisible safePeerId addOnly operations := by
  constructor
  · intro h
    have hgroups := (groups_iff operations).mp h.groups
    exact ⟨(replacements_iff operations).mp h.replacements, hgroups.1, hgroups.2,
      (links_iff operations).mp h.links⟩
  · intro h
    exact ⟨submit_pairs_perm operations, submit_deletes_perm operations,
      (replacements_iff operations).mpr h.replacements,
      (groups_iff operations).mpr ⟨h.peers, h.unresolved⟩, (links_iff operations).mpr h.links⟩

namespace Sample

/-- An event that is only ever added, and a link between two files that are there already -/
def linkedElsewhere : ResolvedOperations Unit where
  upsertOperations := [⟨none, none, "events".toList, ["viking://e".toList], ()⟩]
  deleteFileContents := []
  errors := []
  resolvedLinks := [⟨"viking://a".toList, "viking://b".toList, ()⟩]
  deleteReplacements := Dict.empty

/-- A note for two peers -/
def twoPeers : ResolvedOperations Unit where
  upsertOperations := [⟨none, none, "notes".toList,
    ["viking://user/u/peers/p/memories/n".toList, "viking://user/u/peers/q/memories/n".toList], ()⟩]
  deleteFileContents := []
  errors := []
  resolvedLinks := []
  deleteReplacements := Dict.empty

/-- The link is neither given to the append-only request nor applied later; and the clone for
the second peer is in the group of the first. -/
theorem link_lost_and_peers_mixed :
    ¬Lossless some (· = "events".toList) linkedElsewhere ∧
      ¬Lossless some (· = "events".toList) twoPeers := by
  constructor
  · intro h
    rcases h.links _ List.mem_cons_self with ⟨part, hpart, hlink⟩ | hlink
    · cases hpart
      cases hlink
    · cases hlink
  · intro h
    have hgroup := (h.groups _ List.mem_cons_self).1 _ (List.mem_cons_of_mem _ List.mem_cons_self)
    revert hgroup
    decide +kernel

end Sample

end UpdateSplit

end OpenViking.Memory
