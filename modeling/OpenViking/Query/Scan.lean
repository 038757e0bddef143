/-
# `OpenViking.Query.Scan` — what a scan of a URI finds

The scan of a URI returns, page by page, all records that pass the filter and
the test on URIs (`scan_eq`).  These are the records of the account in the scope
of the URI whose stored path the filter selects (`mem_scanResult`).
-/
import OpenViking.Query.Transfer
import OpenViking.Query.Meaning

namespace OpenViking.Query

open OpenViking.Lib

variable {P : Type}

/-! ## The filter -/

/-- What the filter asks of the stored path. -/
def pathSelected (uri path : Str) (recursive : Bool) : Bool :=
  pathMatches (.str path) (.str (encodeUri uri)) (some 0) ||
    (recursive && pathMatches (.str path) (.str (encodeUri uri)) (some (-1))) ||
    decide (uri ++ ['#'] <:+: path)

section

variable (row : Row P)

theorem matches_account (accountId : Str) :
    matchesFilter contextKinds row.fields (.must "account_id".toList [.str accountId] []) =
      .ok (decide (row.accountId = accountId)) := by
  have hfield : row.fields "account_id".toList = .str row.accountId := rfl
  have hsame : (Value.str row.accountId).same (.str accountId) =
      decide (row.accountId = accountId) := by
    rw [Bool.eq_iff_iff, Value.same_str, Value.str.injEq, decide_eq_true_iff]
  rw [matchesFilter, mustMatches_other (by decide), hfield, Value.valueMatches, List.any_cons,
    List.any_nil, Bool.or_false, hsame]
  intro items h
  cases h

theorem matches_path (expected : Str) (depth : Int) :
    matchesFilter contextKinds row.fields
        (.must "uri".toList [.str expected] (formatDepth depth)) =
      .ok (pathMatches (.str row.path) (.str expected) (some depth)) := by
  have hfield : row.fields "uri".toList = .str row.path := rfl
  rw [matchesFilter, mustMatches_path (by decide) (parseDepth_formatDepth depth), hfield,
    List.any_cons, List.any_nil, Bool.or_false]

theorem matches_contains (substring : Str) :
    matchesFilter contextKinds row.fields (.contains "uri".toList substring) =
      .ok (decide (substring <:+: row.path)) := by
  rw [matchesFilter, checkField_eq_ok (Or.inl (by decide))]
  rfl

theorem passes_transferFilter (ctx : RequestContext) (uri : Str) (recursive : Bool) :
    row.passes (withAccountFilter ctx (uriTransferFilter ctx uri recursive)) = true ↔
      row.accountId = ctx.user.accountId ∧ pathSelected uri row.path recursive = true := by
  have huri : isUriField "uri".toList = true := by decide
  have hacc : isUriField "account_id".toList = false := by decide
  unfold Row.passes withAccountFilter uriTransferFilter accountFilter pathSelected
  cases recursive with
  | false =>
      simp only [compileFilter, compileAll, Dsl.combine, List.filter, Dsl.isEmpty, huri, hacc,
        Bool.not_false, if_true, Bool.false_eq_true, if_false, stored, encodeUriFieldValue,
        List.nil_append, matchesFilter_and, matchesFilter_or, matchesAll, matches_account,
        matches_path, matches_contains]
      simp [pure, bind, Except.pure, Except.bind, Except.map]
  | true =>
      simp only [compileFilter, compileAll, Dsl.combine, List.filter, Dsl.isEmpty, huri, hacc,
        Bool.not_false, if_true, Bool.false_eq_true, if_false, stored, encodeUriFieldValue,
        List.nil_append, List.cons_append, matchesFilter_and, matchesFilter_or, matchesAll,
        matches_account, matches_path, matches_contains]
      simp [pure, bind, Except.pure, Except.bind, Except.map, or_assoc]

end

/-! ## The scan -/

section

variable {store : VectorStore P} {ctx : RequestContext} {filter : FilterExpr}

theorem mem_rows {id : Str} {row : Row P} :
    (id, row) ∈ store.entries.map (fun e => (e.1, e.2)) ↔ store.lookup id = some row := by
  rw [← Option.mem_def, AList.mem_lookup_iff, List.mem_map]
  constructor
  · rintro ⟨⟨id', row'⟩, he, heq⟩
    cases heq
    exact he
  · exact fun he => ⟨⟨id, row⟩, he, rfl⟩

theorem mem_selected {id : Str} {row : Row P} : (id, row) ∈ selected store ctx filter ↔
    store.lookup id = some row ∧ row.passes (withAccountFilter ctx filter) = true := by
  rw [selected, List.mem_filter, mem_rows]

theorem nodup_selected : ((selected store ctx filter).map (·.1)).Nodup := by
  have hkeys : ((store.entries.map fun e => (e.1, e.2)).map (·.1)).Nodup := by
    rw [List.map_map]
    exact store.nodupKeys
  exact hkeys.sublist (List.filter_sublist.map _)

/-- Fetching the records again gives the same records. -/
theorem strictGet_map_fst {records : List (Str × Row P)}
    (h : ∀ e ∈ records, store.lookup e.1 = some e.2 ∧ e.2.accountId = ctx.user.accountId) :
    strictGet store ctx (records.map (·.1)) = records := by
  induction records with
  | nil => rfl
  | cons e records ih =>
      obtain ⟨hlookup, hacc⟩ := h e List.mem_cons_self
      have := ih fun e he => h e (List.mem_cons_of_mem _ he)
      unfold strictGet at this ⊢
      simp only [List.map_cons, List.filterMap_cons, hlookup, if_pos hacc, this]

theorem scopedRecords_eq {scope : Str} {recursive full : Bool} {page : List (Str × Row P)}
    (h : ∀ e ∈ page, store.lookup e.1 = some e.2 ∧ e.2.accountId = ctx.user.accountId) :
    scopedRecords store ctx scope recursive full page = .ok (inScope scope recursive page) := by
  have hget : strictGet store ctx ((inScope scope recursive page).map (·.1)) =
      inScope scope recursive page :=
    strictGet_map_fst fun e he => h e (List.mem_of_mem_filter he)
  unfold scopedRecords
  split
  · rw [hget]
    exact if_neg (fun h => h rfl)
  · rfl

/-- What holds before each turn of the loop: the first `scanned` records have been seen. -/
structure Scanned (records : List (Str × Row P)) (scope : Str) (recursive : Bool)
    (st : ScanState P) : Prop where
  cursor : st.cursor.getD 0 = st.scanned
  kept : st.records = inScope scope recursive (records.take st.scanned)
  ids : st.seenIds = (records.take st.scanned).map (·.1)
  cursors : ∀ c ∈ st.seenCursors, c ≤ st.scanned
  bound : st.scanned ≤ records.length

theorem scanStep_spec {scope : Str} {recursive : Bool} (full : Bool) {size : Nat}
    {st : ScanState P} (hsize : 0 < size)
    (hst : Scanned (selected store ctx filter) scope recursive st)
    (hacc : ∀ e ∈ selected store ctx filter, e.2.accountId = ctx.user.accountId) :
    ∃ st' done, scanStep store ctx filter scope recursive full size
        (selected store ctx filter).length st = .ok (st', done) ∧
      (done = true → st'.records = inScope scope recursive (selected store ctx filter)) ∧
      (done = false → Scanned (selected store ctx filter) scope recursive st' ∧
        st.scanned < st'.scanned) := by
  generalize hsel : selected store ctx filter = sel at *
  generalize hpage : (sel.drop st.scanned).take size = page
  have hscroll : strictScroll store ctx filter size st.cursor =
      (page, if page.length = size then some (st.scanned + page.length) else none) := by
    unfold strictScroll
    rw [hsel, hst.cursor, ← hpage]
  have hlen : page.length = min size (sel.length - st.scanned) := by
    rw [← hpage, List.length_take, List.length_drop]
  have hbound := hst.bound
  have htake : sel.take (st.scanned + page.length) = sel.take st.scanned ++ page := by
    rw [List.take_add, ← hpage, List.length_take, ← List.take_eq_take_min]
  have hmem : ∀ e ∈ page, e ∈ sel := by
    intro e he
    rw [← hpage] at he
    exact List.mem_of_mem_drop (List.mem_of_mem_take he)
  have hrecords : scopedRecords store ctx scope recursive full page =
      .ok (inScope scope recursive page) :=
    scopedRecords_eq fun e he => ⟨(mem_selected.mp (hsel ▸ hmem e he)).1, hacc e (hmem e he)⟩
  have hids : (st.seenIds ++ page.map (·.1)).Nodup := by
    rw [hst.ids, ← List.map_append, ← htake]
    exact (hsel ▸ nodup_selected).sublist ((List.take_sublist _ _).map _)
  have hkept : st.records ++ inScope scope recursive page =
      inScope scope recursive (sel.take (st.scanned + page.length)) := by
    rw [hst.kept, htake, inScope, inScope, inScope, List.filter_append]
  have hnonempty : ¬ (page.isEmpty && st.scanned < sel.length) = true := by
    simp only [Bool.and_eq_true, List.isEmpty_iff, decide_eq_true_eq, not_and]
    intro hnil
    rw [hnil, List.length_nil] at hlen
    omega
  unfold scanStep
  rw [hscroll]
  simp only [if_neg hnonempty, if_neg (not_not.mpr hids), hrecords, ScanState.advance, hkept]
  by_cases hdone : st.scanned + page.length = sel.length
  · refine ⟨_, true, if_pos hdone, ?_, by simp⟩
    intro _
    simp only [hdone, List.take_length]
  · -- the page is full, so there is a cursor, past all cursors so far
    have hfull : page.length = size := by omega
    have hfresh : st.scanned + page.length ∉ st.seenCursors := fun h => by
      have := hst.cursors _ h
      omega
    rw [if_neg hdone, if_neg (by omega)]
    simp only [hfull, if_true] at hfresh ⊢
    have hmore : st.scanned < st.scanned + size := by omega
    have hleft : st.scanned + size ≤ sel.length := by omega
    refine ⟨_, false, if_neg hfresh, by simp, fun _ => ⟨?_, hmore⟩⟩
    refine ⟨rfl, rfl, ?_, ?_, hleft⟩
    · rw [hst.ids, ← List.map_append, ← htake, hfull]
    · intro c hc
      rcases List.mem_cons.mp hc with rfl | hc
      · exact le_rfl
      · exact (hst.cursors c hc).trans (Nat.le_add_right _ _)

/-- Enough turns end the loop with all records in scope. -/
theorem scanLoop_eq {scope : Str} {recursive full : Bool} {size : Nat} (hsize : 0 < size)
    (hacc : ∀ e ∈ selected store ctx filter, e.2.accountId = ctx.user.accountId) {fuel : Nat}
    {st : ScanState P} (hst : Scanned (selected store ctx filter) scope recursive st)
    (hfuel : (selected store ctx filter).length < st.scanned + fuel) :
    ∃ batches, scanLoop store ctx filter scope recursive full size
        (selected store ctx filter).length fuel st =
      .ok (inScope scope recursive (selected store ctx filter), batches) := by
  induction fuel generalizing st with
  | zero => exact absurd hst.bound (by omega)
  | succ fuel ih =>
      obtain ⟨st', done, hstep, hdone, hgo⟩ := scanStep_spec full hsize hst hacc
      rw [scanLoop, hstep]
      cases done with
      | true => exact ⟨st'.batches, by rw [← hdone rfl]⟩
      | false =>
          obtain ⟨hst', hlt⟩ := hgo rfl
          exact ih hst' (by omega)

/-- The scan returns the selected records that are in scope. -/
theorem scan_eq {uri scope : Str} {recursive full : Bool} {size : Nat} (hsize : 0 < size)
    (hscope : normalizeUri uri = .ok scope) :
    ∃ batches, scanUriTransferScope store ctx uri recursive full size =
      .ok (inScope scope recursive (selected store ctx (uriTransferFilter ctx uri recursive)),
        batches) := by
  unfold scanUriTransferScope
  rw [hscope]
  refine scanLoop_eq hsize ?_ ⟨rfl, rfl, rfl, nofun, Nat.zero_le _⟩ (by omega)
  intro e he
  exact ((passes_transferFilter e.2 ctx uri recursive).mp (mem_selected.mp he).2).1

end

/-! ## The records of a source -/

theorem normalizeUri_eq_ok {uri scope : Str} (h : normalizeUri uri = .ok scope) :
    scope = trimEnd '/' uri := by
  unfold normalizeUri at h
  cases hcheck : checkVikingUri uri with
  | error m => rw [hcheck] at h; cases h
  | ok u => rw [hcheck] at h; exact (Except.ok.inj h).symm

section

variable (store : VectorStore P) (ctx : RequestContext) (source : Str) (recursive : Bool)

/-- The record belongs to the account and to the scope of the source. -/
def InSource (row : Row P) : Prop :=
  row.accountId = ctx.user.accountId ∧ inTransferScope (trimEnd '/' source) row.uri recursive = true

/-- The records a scan of the source returns. -/
def scanResult : List (Str × Row P) :=
  inScope (trimEnd '/' source) recursive
    (selected store ctx (uriTransferFilter ctx source recursive))

end

section

variable {store : VectorStore P} {ctx : RequestContext} {source target : Str} {recursive : Bool}

/-- The records a scan returns -/
theorem mem_scanResult {id : Str} {row : Row P} :
    (id, row) ∈ scanResult store ctx source recursive ↔
      store.lookup id = some row ∧ InSource ctx source recursive row ∧
        pathSelected source row.path recursive = true := by
  rw [scanResult, inScope, List.mem_filter, mem_selected, passes_transferFilter]
  unfold InSource
  tauto

/-- What both transfers start from. -/
theorem collectSource_eq_ok {records : List (Str × Row P)} {batches : Nat}
    (h : collectSource store ctx source target recursive = .ok (records, batches)) :
    records = scanResult store ctx source recursive := by
  unfold collectSource at h
  split at h
  · cases h
  · split at h
    · cases h
    · cases hscope : normalizeUri source with
      | error m =>
          rw [scanUriTransferScope, hscope] at h
          cases h
      | ok scope =>
          obtain ⟨batches', hscan⟩ : ∃ batches',
              scanUriTransferScope store ctx source recursive true 100 = .ok (_, batches') :=
            scan_eq (by decide) hscope
          obtain rfl := normalizeUri_eq_ok hscope
          rw [hscan] at h
          exact (Prod.mk.inj (Except.ok.inj h)).1.symm

end

end OpenViking.Query
