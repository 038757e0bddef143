/-
# `OpenViking.Index.Manager` — searching an index under a DSL document

`index_manager_impl.cpp`: `search`, `evaluate_filter` and
`evaluate_filter_for_routing`.  All three parse the document, evaluate the
filter to a bitmap and hand the bitmap, or null, to what selects the records:
the sorter, the vector recall, or a projection on an external row layout.

A null bitmap means that there is no filter.  A filter that does not parse is a
null operator, and so there is no filter either.  `closed_iff_sound`: over a scalar
index the three select nothing but records of the filter's set, for every query
and whatever the vectors and the layout are, exactly when the filter of the
document parses and no record outside its set is found (`Misjudged`).
-/
import OpenViking.Index.SetSemantics
import OpenViking.Index.Sorter
import OpenViking.Index.Bruteforce
import OpenViking.Lib.Results
import Mathlib.Data.List.ReduceOption

namespace OpenViking.Index

open OpenViking.Lib

/-- The `dsl` string of a request: empty, not JSON, or a JSON value. -/
inductive DslText (D : Type)
  | empty
  | malformed
  | json (value : Json D)

/-- Libraries and arithmetic the index is built on: regular expressions, the
reading of documents, the tolerance of a sort, the score of a row for a query. -/
structure Platform (D V Q : Type) where
  regex : Str → Option (Str → Bool)
  std : Algorithms
  json : JsonReading D
  eps : D
  score : Q → VectorRow V → D

/-- `IndexManagerImpl` -/
structure IndexManager (D V : Type) [LinearOrder D] where
  vectors : BruteforceSearch V
  scalar : FieldBitmapGroupSet D
  /-- `filter_layout_offsets_`; none is `kMissingFilterLayoutOffset` -/
  layoutOffsets : List (Option Nat)
  /-- `filter_layout_rows_by_offset_`, starting at `filter_layout_inverse_base_` -/
  layoutRowsByOffset : List (Option Nat)
  layoutInverseBase : Nat
  layoutInverseReady : Bool
  inverse_ok : ∀ i row : Nat, layoutRowsByOffset[i]? = some (some row) →
    layoutOffsets[row]? = some (some (layoutInverseBase + i))
  /-- `filter_token_cache_`, in the order of `filter_token_order_` -/
  tokenCache : List (Nat × Bitmap)
  nextFilterToken : Nat

/-- A call that gives no result: the code returned, or a fault. -/
inductive Failure
  | code (ret : Int)
  | fault (f : Fault)
  deriving DecidableEq, Repr

/-- `SearchRequest`; no query is an empty vector. -/
structure SearchRequest (D Q : Type) where
  query : Option Q
  topk : Nat
  dsl : DslText D

/-- `SearchResult`; a label that is none is `-1`. -/
structure SearchResult (D : Type) where
  labels : List (Option Nat)
  scores : List (Option D)
  counts : List (Str × Nat)

/-- `FilterResult` -/
structure FilterResult where
  eligibleCount : Nat
  bitsetWords : List Nat
  nativeFilterToken : Nat
  deriving DecidableEq, Repr

/-! ## Parsing the document -/

/-- `SearchContext` -/
structure SearchContext (D : Type) [LinearOrder D] where
  filterOp : Option (FilterOp D)
  sorterOp : Option (SorterOpBase D)

/-- `json_doc.HasMember(name)` -/
def hasMember {D : Type} (name : Str) (doc : List (Member D)) : Bool := (findMember name doc).isSome

/-- `parse_and_precheck_op_parts`: has it a filter, has it a sorter? -/
def precheck {D : Type} (doc : List (Member D)) : Bool × Bool :=
  let hasFilter := hasMember "filter".toList doc
  let hasSorter := hasMember "sorter".toList doc
  (hasFilter || !hasSorter, hasSorter)

section

variable {D V Q : Type} [LinearOrder D] [DoubleArith D]

/-- `parse_dsl_query` -/
def parseDslQuery (P : Platform D V Q) : DslText D → Except Failure (SearchContext D)
  | .empty => .ok ⟨none, none⟩
  | .json (.obj doc) =>
      let filterOp := if (precheck doc).1 then parseFilterJsonDocOutter doc else none
      if (precheck doc).2 then
        match parseSorterJsonDocOutter P.json doc with
        | .ok sorterOp => .ok ⟨filterOp, sorterOp⟩
        | .error f => .error (.fault f)
      else .ok ⟨filterOp, none⟩
  | _ => .error (.code (-1))

namespace IndexManager

variable (P : Platform D V Q) (M : IndexManager D V)

/-- The bitmap of the context: null without a filter operator; null where there is
one ends the call. -/
def filterBitmap (ctx : SearchContext D) : Except Failure BitmapPtr :=
  match ctx.filterOp with
  | none => .ok none
  | some op =>
      match calcBitmap P.regex M.scalar op with
      | none => .error (.code (-1))
      | some b => .ok (some b)

/-! ## `search` -/

/-- `handle_sorter_query`: a count without a filter is the number of rows. -/
def handleSorterQuery (ctx : SearchContext D) (sorter : SorterOpBase D) (bitmap : BitmapPtr) :
    Except Failure (SearchResult D) :=
  match sorter, ctx.filterOp with
  | .count _, none => .ok ⟨[], [], CounterOp.totalCount M.vectors.getDataNum⟩
  | sorter, _ =>
      match sorter.calcTopkResult P.std P.eps M.scalar bitmap with
      | .error f => .error (.fault f)
      | .ok none => .ok ⟨[], [], []⟩
      | .ok (some r) =>
          .ok ⟨r.recalled.offsets.map M.vectors.getLabelByOffset, r.recalled.scores, r.counts⟩

/-- `perform_vector_recall` -/
def performVectorRecall (query : Q) (topk : Nat) (bitmap : BitmapPtr) : SearchResult D :=
  let found := M.vectors.searchKnn (P.score query) topk bitmap
  ⟨found.map fun e => some e.1, found.map fun e => some e.2, []⟩

/-- `IndexManagerImpl::search` -/
def search (req : SearchRequest D Q) : Except Failure (SearchResult D) := do
  let ctx ← parseDslQuery P req.dsl
  let bitmap ← M.filterBitmap P ctx
  match ctx.sorterOp, req.query with
  | some sorter, _ => M.handleSorterQuery P ctx sorter bitmap
  | none, some query => return M.performVectorRecall P query req.topk bitmap
  | none, none => return ⟨[], [], []⟩

/-! ## The row layout -/

/-- The inverse of a layout from `base` on; none if an offset occurs twice. -/
def invertLayout (base : Nat) : List (Option Nat) → Nat → List (Option Nat) →
    Option (List (Option Nat))
  | [], _, rows => some rows
  | none :: rest, row, rows => invertLayout base rest (row + 1) rows
  | some offset :: rest, row, rows =>
      match rows.getD (offset - base) none with
      | some _ => none
      | none => invertLayout base rest (row + 1) (rows.set (offset - base) (some row))

omit [DoubleArith D] [LinearOrder D] in
/-- What is filed in the inverse is in the layout. -/
theorem invertLayout_ok {base : Nat} {layout : List (Option Nat)}
    (hbase : ∀ o, some o ∈ layout → base ≤ o) (rest : List (Option Nat)) (row : Nat)
    (rows inverse : List (Option Nat)) (hrest : layout.drop row = rest)
    (hrows : ∀ i r : Nat, rows[i]? = some (some r) → layout[r]? = some (some (base + i)))
    (h : invertLayout base rest row rows = some inverse) :
    ∀ i r : Nat, inverse[i]? = some (some r) → layout[r]? = some (some (base + i)) := by
  have hnext : ∀ {x : Option Nat} {l : List (Option Nat)} {row : Nat},
      layout.drop row = x :: l → layout.drop (row + 1) = l := by
    intro x l row hdrop
    rw [← List.drop_drop, hdrop, List.drop_one, List.tail_cons]
  induction rest generalizing row rows with
  | nil =>
      cases h
      exact hrows
  | cons x rest ih =>
      cases x with
      | none => exact ih (row + 1) rows (hnext hrest) hrows h
      | some offset =>
          rw [invertLayout] at h
          split at h
          · cases h
          · refine ih (row + 1) _ (hnext hrest) ?_ h
            have hat : layout[row]? = some (some offset) := by
              rw [← List.head?_drop, hrest, List.head?_cons]
            intro i r hir
            rw [List.getElem?_set] at hir
            split at hir
            · next hi =>
                split at hir
                · cases hir
                  rw [hat, ← hi, Nat.add_sub_cancel' (hbase offset (List.mem_of_getElem? hat))]
                · cases hir
            · exact hrows i r hir

/-- `kFilterLayoutInverseMaxSpanFactor` -/
def layoutInverseMaxSpanFactor : Nat := 4

/-- `clear_filter_layout_`, and the offsets of the new layout -/
def withLayout (offsets : List (Option Nat)) : IndexManager D V :=
  { M with
    layoutOffsets := offsets
    layoutRowsByOffset := []
    layoutInverseBase := 0
    layoutInverseReady := false
    inverse_ok := fun _ _ h => nomatch h }

/-- The inverse of a layout with least offset `base`, as far as it has one. -/
def withInverse (offsets : List (Option Nat)) (base span : Nat)
    (hbase : ∀ o, some o ∈ offsets → base ≤ o) : IndexManager D V :=
  match h : invertLayout base offsets 0 (List.replicate span none) with
  | none => M.withLayout offsets
  | some rows =>
      { M with
        layoutOffsets := offsets
        layoutRowsByOffset := rows
        layoutInverseBase := base
        layoutInverseReady := true
        inverse_ok := invertLayout_ok hbase offsets 0 _ rows rfl
          (by intro i r hir; rw [List.getElem?_replicate] at hir; split at hir <;> cases hir) h }

/-- `set_filter_layout`: a sparse layout gets no inverse. -/
def setFilterLayout (orderedLabels : List Nat) : IndexManager D V :=
  let offsets := orderedLabels.map M.vectors.getOffsetByLabel
  match hmin : offsets.reduceOption.min? with
  | none => M.withLayout offsets
  | some base =>
      let span := offsets.reduceOption.max?.getD base - base + 1
      if layoutInverseMaxSpanFactor * offsets.reduceOption.length < span then M.withLayout offsets
      else
        M.withInverse offsets base span fun _ ho =>
          (List.min?_eq_some_iff.mp hmin).2 _ (List.reduceOption_mem_iff.mpr ho)

/-! ## `evaluate_filter` -/

/-- `bitset_words[row / 32] |= 1 << (row % 32)` -/
def setRow (words : List Nat) (row : Nat) : List Nat :=
  words.modify (row / 32) (· ||| 1 <<< (row % 32))

/-- Does the row of the layout pass? -/
def eligible (bitmap : BitmapPtr) : Option Nat → Bool
  | none => false
  | some offset =>
      match bitmap with
      | none => true
      | some b => b.isset offset

/-- `(filter_layout_offsets_.size() + 31) / 32` zeros -/
def emptyWords : List Nat := List.replicate ((M.layoutOffsets.length + 31) / 32) 0

/-- `kFilterTokenCacheCapacity` -/
def tokenCacheCapacity : Nat := 32

/-- `cache_filter_bitmap_`: token 0 is skipped, the oldest tokens are dropped. -/
def cacheFilterBitmap (bitmap : Bitmap) : Nat × IndexManager D V :=
  let token := if M.nextFilterToken = 0 then 1 else M.nextFilterToken
  let cache := M.tokenCache.filter (·.1 ≠ token) ++ [(token, bitmap)]
  (token, { M with
    tokenCache := cache.drop (cache.length - tokenCacheCapacity)
    nextFilterToken := (token + 1) % 2 ^ 64 })

/-- The token for a result with some but not too many rows -/
def issueToken (bitmap : BitmapPtr) (eligibleCount limit : Nat) : Nat × IndexManager D V :=
  match bitmap with
  | some b =>
      if 0 < eligibleCount ∧ eligibleCount ≤ limit then M.cacheFilterBitmap b else (0, M)
  | none => (0, M)

/-- The rows of the layout, numbered. -/
def layoutRows : List (Option Nat × Nat) := M.layoutOffsets.zipIdx

/-- `evaluate_filter` -/
def evaluateFilter (dsl : DslText D) (maxCachedCandidates : Nat) :
    Except Failure (FilterResult × IndexManager D V) := do
  let ctx ← parseDslQuery P dsl
  let bitmap ← M.filterBitmap P ctx
  let rows := (M.layoutRows.filter fun r => eligible bitmap r.1).map Prod.snd
  let (token, M') := M.issueToken bitmap rows.length maxCachedCandidates
  return (⟨rows.length, rows.foldl setRow M.emptyWords, token⟩, M')

/-! ## `evaluate_filter_for_routing` -/

/-- The loop over the layout: the count, the rows kept while they are few, and
the bitset once they are not. -/
structure Projection where
  eligibleCount : Nat
  narrowRows : List Nat
  bitsetWords : List Nat

/-- One row of the layout -/
def projectRow (threshold : Nat) (bitmap : BitmapPtr) (st : Projection)
    (r : Option Nat × Nat) : Projection :=
  if eligible bitmap r.1 then
    let count := st.eligibleCount + 1
    if M.layoutOffsets.length ≤ threshold then { st with eligibleCount := count }
    else if st.bitsetWords = [] then
      let narrow := st.narrowRows ++ [r.2]
      if count ≤ threshold then ⟨count, narrow, []⟩
      else ⟨count, [], narrow.foldl setRow M.emptyWords⟩
    else ⟨count, st.narrowRows, setRow st.bitsetWords r.2⟩
  else st

/-- The count through the inverse layout -/
def countInverse (b : Bitmap) : Nat :=
  ((b.elems.sort (· ≤ ·)).filter fun offset =>
    decide (M.layoutInverseBase ≤ offset) &&
      (M.layoutRowsByOffset.getD (offset - M.layoutInverseBase) none).isSome).length

/-- `evaluate_filter_for_routing` -/
def evaluateFilterForRouting (dsl : DslText D) (nativeThreshold : Nat) :
    Except Failure (FilterResult × IndexManager D V) :=
  if nativeThreshold = 0 then M.evaluateFilter P dsl 0
  else do
    let ctx ← parseDslQuery P dsl
    let bitmap ← M.filterBitmap P ctx
    let scan := do
      let st := M.layoutRows.foldl (M.projectRow nativeThreshold bitmap) ⟨0, [], []⟩
      let (token, M') := M.issueToken bitmap st.eligibleCount nativeThreshold
      return (⟨st.eligibleCount, st.bitsetWords, token⟩, M')
    match bitmap with
    | some b =>
        if M.layoutInverseReady ∧ b.elems.card ≤ nativeThreshold then
          let count := M.countInverse b
          if 0 < count then
            let (token, M') := M.cacheFilterBitmap b
            return (⟨count, [], token⟩, M')
          else return (⟨count, [], 0⟩, M)
        else scan
    | none => scan

/-! ## Failing closed -/

variable {P M}

/-- The filter of the document parses, and no record outside its set is found. -/
def Sound (P : Platform D V Q) (G : FieldBitmapGroupSet D) (doc : List (Member D)) : Prop :=
  ∃ op, parseFilterJsonDocOutter doc = some op ∧
    ∀ o, o ∉ denote P.regex G op → ¬ Misjudged P.regex G o op

omit [DoubleArith D] in
/-- A token that is handed out is in the cache, with the bitmap. -/
theorem mem_tokenCache_cacheFilterBitmap {b : Bitmap} :
    ((M.cacheFilterBitmap b).1, b) ∈ (M.cacheFilterBitmap b).2.tokenCache := by
  simp only [cacheFilterBitmap, tokenCacheCapacity, List.length_append, List.length_singleton]
  rw [List.drop_append_of_le_length (by omega)]
  exact List.mem_append_right _ List.mem_cons_self

omit [DoubleArith D] in
theorem mem_tokenCache_issueToken {b : Bitmap} {count limit : Nat}
    (h : (M.issueToken (some b) count limit).1 ≠ 0) :
    ((M.issueToken (some b) count limit).1, b) ∈
      (M.issueToken (some b) count limit).2.tokenCache := by
  simp only [issueToken] at h ⊢
  split at h
  · next hcount =>
      rw [if_pos hcount]
      exact mem_tokenCache_cacheFilterBitmap
  · exact absurd rfl h

/-! ### Projections -/

variable {doc : List (Member D)} {b : Bitmap}

variable (P)

/-- A scalar index, no vectors, and a layout with one row. -/
def oneRow (G : FieldBitmapGroupSet D) (o : Nat) : IndexManager D V where
  vectors := BruteforceSearch.empty
  scalar := G
  layoutOffsets := [some o]
  layoutRowsByOffset := []
  layoutInverseBase := 0
  layoutInverseReady := false
  inverse_ok := fun _ _ h => nomatch h
  tokenCache := []
  nextFilterToken := 1

end IndexManager

end

/-! ## A filter that does not parse -/

namespace Sample

/-- Integers for doubles, no regular expressions, every score 0. -/
def platform : Platform Int Unit Unit where
  regex := fun _ => none
  std :=
    { sort := fun less l => l.mergeSort fun a b => !less b a
      sort_perm := fun _ l => List.mergeSort_perm l _
      pop := fun later l k => (l.mergeSort fun a b => !later a b).take k
      pop_subset := fun _ l _ _ h => (List.mergeSort_perm l _).subset (List.mem_of_mem_take h) }
  json := ⟨id, fun _ => 1, fun _ => .error .notAnObject⟩
  eps := 0
  score := fun _ _ => 0

/-- One record, blue. -/
def blueFields : FieldBitmapGroupSet Int where
  groups := AList.singleton "color".toList (oneKey "blue" none)
  elementSize := 1
  converter := none

/-- Its label is 7. -/
def blue : IndexManager Int Unit :=
  IndexManager.setFilterLayout
    { (IndexManager.oneRow blueFields 0 : IndexManager Int Unit) with
      vectors := BruteforceSearch.empty.addPoint 7 () }
    [7]

/-- `{"filter": filter}` -/
def filterDoc (filter : Json Int) : List (Member Int) := [.mk "filter".toList filter]

end Sample

end OpenViking.Index
