/-
# `OpenViking.Query.Transfer` — moving the records of a URI

The records of a URI, of what lies below it and of its chunks (`uri#…`) are
found by a filter over the stored paths and then by a test on the URIs as they
are read back (`scanUriTransferScope`).  A move writes them again under the
target and deletes the old ones, and takes the writes back when it fails half
way; its parts stand here, the whole of it in `Compensation`.
-/
import OpenViking.Lib.Paging
import OpenViking.Query.Compile
import OpenViking.Query.Tenant
import Mathlib.Data.List.AList

namespace OpenViking.Query

open OpenViking.Lib

/-! ## Scopes -/

/-- `_normalize_uri` -/
def normalizeUri (uri : Str) : Except String Str := do
  checkVikingUri uri
  return trimEnd '/' uri

/-- The test of `uri_in_transfer_scope`, after the scope has been normalized -/
def inTransferScope (scope uri : Str) (recursive : Bool) : Bool :=
  uri == scope || decide (scope ++ ['#'] <+: uri) || (recursive && decide (scope ++ ['/'] <+: uri))

/-- `rewrite_transfer_uri`, after the URIs have been normalized -/
def rewriteWithin (source target uri : Str) : Str :=
  if uri = source then target
  else if source ++ ['/'] <+: uri ∨ source ++ ['#'] <+: uri then target ++ uri.drop source.length
  else uri

/-- `rewrite_transfer_uri` -/
def rewriteTransferUri (uri sourceUri targetUri : Str) : Except String Str := do
  return rewriteWithin (← normalizeUri sourceUri) (← normalizeUri targetUri) uri

/-! ## Records -/

/-- A record of the vector store, with its URI in the stored form. -/
structure Row (P : Type) where
  accountId : Str
  path : Str
  level : Int
  ownerUserId : Option Str
  ownerSpace : Str
  contextType : ContextType
  payload : P

/-- The URI as the adapter reads it back. -/
def Row.uri {P : Type} (row : Row P) : Str := decodeUri row.path

/-- The fields of a row that filters look at. -/
def Row.fields {P : Type} (row : Row P) : Record := fun field =>
  if field = "uri".toList then .str row.path
  else if field = "account_id".toList then .str row.accountId
  else .none

/-- The content of the vector store, by record id. -/
abbrev VectorStore (P : Type) : Type := AList fun _ : Str => Row P

/-- `seed_uri_for_vector_id` -/
def seedUriForVectorId (uri : Str) (level : Int) : Str :=
  if level = 0 then
    if "/.abstract.md".toList <:+ uri then uri else uri ++ "/.abstract.md".toList
  else if level = 1 then
    if "/.overview.md".toList <:+ uri then uri else uri ++ "/.overview.md".toList
  else uri

inductive TransferMode
  | copy
  | move

/-- What a transfer does not look into: the digest of record ids, and how it rewrites the rest of
a record (timestamps, references in abstracts, the fields of access rules). -/
structure Rewriting (P : Type) where
  digest : Str → Str
  payload : TransferMode → Row P → Str → P

section

variable {P : Type} (w : Rewriting P)

/-- `vector_record_id` -/
def vectorRecordId (accountId uri : Str) (level : Int) : Str :=
  w.digest (accountId ++ ':' :: seedUriForVectorId uri level)

/-- `rewrite_vector_record`: the new record with its id -/
def rewriteVectorRecord (mode : TransferMode) (ctx : RequestContext) (sourceUri targetUri : Str)
    (row : Row P) : Except String (Str × Row P) := do
  let rewrittenUri ← rewriteTransferUri row.uri sourceUri targetUri
  let ownerSpace ← ownerSpaceForUri rewrittenUri
  let contextType ← contextTypeForUri rewrittenUri
  return (vectorRecordId w ctx.user.accountId rewrittenUri row.level,
    { accountId := ctx.user.accountId
      path := encodeUri rewrittenUri
      level := row.level
      ownerUserId := ownerUserIdForUri rewrittenUri
      ownerSpace := ownerSpace
      contextType := contextType
      payload := w.payload mode row rewrittenUri })

/-! ## Store calls -/

/-- The field types of the collection that the transfer filter meets. -/
def contextKinds : Str → FieldKind := fun field => if field = "uri".toList then .path else .other

/-- The row passes the compiled filter. -/
def Row.passes (row : Row P) (filter : FilterExpr) : Bool :=
  match matchesFilter contextKinds row.fields (compileFilter filter) with
  | .ok b => b
  | .error _ => false

/-- `_with_account_filter` -/
def withAccountFilter (ctx : RequestContext) (filter : FilterExpr) : FilterExpr :=
  .and [accountFilter ctx, filter]

/-- The records a filter of the bound account selects, in the order of the pages. -/
def selected (store : VectorStore P) (ctx : RequestContext) (filter : FilterExpr) :
    List (Str × Row P) :=
  (store.entries.map fun e => (e.1, e.2)).filter fun e =>
    e.2.passes (withAccountFilter ctx filter)

/-- `strict_scroll`: a page and the cursor after it, when the page is full -/
def strictScroll (store : VectorStore P) (ctx : RequestContext) (filter : FilterExpr)
    (limit : Nat) (cursor : Option Nat) : List (Str × Row P) × Option Nat :=
  let offset := cursor.getD 0
  let page := ((selected store ctx filter).drop offset).take limit
  (page, if page.length = limit then some (offset + page.length) else none)

/-- `strict_get`: the records with these ids, of the bound account -/
def strictGet (store : VectorStore P) (ctx : RequestContext) (ids : List Str) :
    List (Str × Row P) :=
  ids.filterMap fun id =>
    match store.lookup id with
    | some row => if row.accountId = ctx.user.accountId then some (id, row) else none
    | none => none

/-! ## The scan -/

/-- `_uri_transfer_filter`, on the local backend -/
def uriTransferFilter (ctx : RequestContext) (uri : Str) (recursive : Bool) : FilterExpr :=
  .and [accountFilter ctx,
    .or (.eq "uri".toList (.str uri) ::
      ((if recursive then [.pathScope "uri".toList uri (-1)] else []) ++
        [.contains "uri".toList (uri ++ ['#'])]))]

/-- Why a scan or a transfer stops. -/
inductive TransferError
  /-- "Vector scan ended after … of … records under …" -/
  | ended (scanned expected : Nat)
  /-- "Vector scan returned duplicate vector record … under …" -/
  | duplicateRecord
  /-- "Failed to fetch complete vector records under …" -/
  | incomplete
  /-- "Vector scan returned … records but count was … under …" -/
  | tooMany (scanned expected : Nat)
  /-- "Vector scan cursor ended after … of … records under …" -/
  | cursorEnded (scanned expected : Nat)
  /-- "Vector scroll cursor repeated under …" -/
  | cursorRepeated (cursor : Nat)
  /-- "… target vector scope already exists: …" -/
  | conflict
  /-- "duplicate record id at index …" -/
  | duplicateId
  /-- The error of a call of the store, or "Vector move wrote … of … records" after it -/
  | raised (message : String)
  /-- "Vector move deleted … of … source records" -/
  | notDeleted (deleted expected : Nat)
  /-- "Vector cleanup deleted … of … records and left … records" -/
  | notCleaned (deleted expected : Nat)
  /-- `VectorTransferRollbackError` -/
  | rollback
  /-- A URI that is not one. -/
  | invalid (message : String)

/-- The loop of `_scan_uri_transfer_scope` carries what it has seen. -/
structure ScanState (P : Type) where
  records : List (Str × Row P)
  cursor : Option Nat
  seenCursors : List Nat
  seenIds : List Str
  scanned : Nat
  batches : Nat

/-- The records of a list that are in scope. -/
def inScope (scope : Str) (recursive : Bool) (records : List (Str × Row P)) :
    List (Str × Row P) :=
  records.filter fun e => inTransferScope scope e.2.uri recursive

/-- The records of a page that are in scope, in full if asked for. -/
def scopedRecords (store : VectorStore P) (ctx : RequestContext) (scope : Str)
    (recursive full : Bool) (page : List (Str × Row P)) :
    Except TransferError (List (Str × Row P)) :=
  if full && !(inScope scope recursive page).isEmpty then
    let records := strictGet store ctx ((inScope scope recursive page).map (·.1))
    if records.length ≠ (inScope scope recursive page).length then .error .incomplete
    else .ok records
  else .ok (inScope scope recursive page)

/-- The state after a page. -/
def ScanState.advance (st : ScanState P) (page records : List (Str × Row P)) : ScanState P :=
  { st with
    records := st.records ++ records
    seenIds := st.seenIds ++ page.map (·.1)
    scanned := st.scanned + page.length
    batches := st.batches + 1 }

/-- One turn of the loop: the state to go on with, or the end. -/
def scanStep (store : VectorStore P) (ctx : RequestContext) (filter : FilterExpr) (scope : Str)
    (recursive full : Bool) (batchSize expected : Nat) (st : ScanState P) :
    Except TransferError (ScanState P × Bool) :=
  match strictScroll store ctx filter batchSize st.cursor with
  | (page, nextCursor) =>
      if page.isEmpty && st.scanned < expected then .error (.ended st.scanned expected)
      else if ¬ (st.seenIds ++ page.map (·.1)).Nodup then .error .duplicateRecord
      else
        match scopedRecords store ctx scope recursive full page with
        | .error e => .error e
        | .ok records =>
            let st' := st.advance page records
            if st'.scanned = expected then .ok (st', true)
            else if expected < st'.scanned then .error (.tooMany st'.scanned expected)
            else
              match nextCursor with
              | none => .error (.cursorEnded st'.scanned expected)
              | some next =>
                  if next ∈ st.seenCursors then .error (.cursorRepeated next)
                  else .ok ({ st' with cursor := some next
                                       seenCursors := next :: st.seenCursors }, false)

/-- The loop, with a bound on its turns. -/
def scanLoop (store : VectorStore P) (ctx : RequestContext) (filter : FilterExpr) (scope : Str)
    (recursive full : Bool) (batchSize expected : Nat) :
    Nat → ScanState P → Except TransferError (List (Str × Row P) × Nat)
  | 0, st => .error (.ended st.scanned expected)
  | fuel + 1, st =>
      match scanStep store ctx filter scope recursive full batchSize expected st with
      | .error e => .error e
      | .ok (st', true) => .ok (st'.records, st'.batches)
      | .ok (st', false) =>
          scanLoop store ctx filter scope recursive full batchSize expected fuel st'

/-- `_scan_uri_transfer_scope`; every turn but the last adds a record. -/
def scanUriTransferScope (store : VectorStore P) (ctx : RequestContext) (uri : Str)
    (recursive full : Bool) (batchSize : Nat) :
    Except TransferError (List (Str × Row P) × Nat) :=
  match normalizeUri uri with
  | .error e => .error (.invalid e)
  | .ok scope =>
      let filter := uriTransferFilter ctx uri recursive
      let expected := (selected store ctx filter).length
      scanLoop store ctx filter scope recursive full batchSize expected (expected + 1)
        ⟨[], none, [], [], 0, 0⟩

/-! ## The parts of a move -/

/-- `VectorTransferResult` -/
structure VectorTransferResult where
  scanned : Nat
  batches : Nat
  written : Nat
  deleted : Nat

/-- `upsert_many` refuses a batch that has an id twice. -/
def upsertMany (store : VectorStore P) (batch : List (Str × Row P)) :
    Except TransferError (VectorStore P) :=
  if (batch.map (·.1)).Nodup then .ok (batch.foldl (fun s e => s.insert e.1 e.2) store)
  else .error .duplicateId

def deleteIds (store : VectorStore P) (ids : List Str) : VectorStore P :=
  ids.foldl (fun s id => s.erase id) store

/-- `_delete_vector_transfer_ids`, batch after batch: the records of the account under these ids -/
def deleteVectorTransferIds (ctx : RequestContext) : VectorStore P → List (List Str) →
    Except (TransferError × VectorStore P) (VectorStore P)
  | store, [] => .ok store
  | store, batch :: rest =>
      let found := (strictGet store ctx batch).map (·.1)
      let store := deleteIds store found
      if strictGet store ctx batch ≠ [] then .error (.notCleaned found.length batch.length, store)
      else deleteVectorTransferIds ctx store rest

/-- What is left of a transfer that fails after these ids have been attempted: the error it
failed with is raised again, unless taking the ids back fails as well. -/
def cleanUp (ctx : RequestContext) (e : TransferError) (store : VectorStore P)
    (attempted : List Str) : TransferError × VectorStore P :=
  match deleteVectorTransferIds ctx store (slices 100 attempted.length attempted) with
  | .ok store => (e, store)
  | .error (_, store) => (.rollback, store)

/-- What is left of a move whose deletions failed: the old records are written back and the new
ones deleted. -/
def restore (ctx : RequestContext) (e : TransferError) (left : VectorStore P)
    (records : List (Str × Row P)) (targetIds : List Str) : TransferError × VectorStore P :=
  match upsertMany left records with
  | .ok restored => cleanUp ctx e restored targetIds
  | .error _ => (.rollback, (cleanUp ctx e left targetIds).2)

/-- What both transfers do first: the scan of the target, which has to be empty, and of the
source. -/
def collectSource (store : VectorStore P) (ctx : RequestContext) (sourceUri targetUri : Str)
    (recursive : Bool) : Except TransferError (List (Str × Row P) × Nat) :=
  match scanUriTransferScope store ctx targetUri recursive false 100 with
  | .error e => .error e
  | .ok (targets, _) =>
      if targets ≠ [] then .error .conflict
      else scanUriTransferScope store ctx sourceUri recursive true 100

/-- The records to write. -/
def targetPayloads (mode : TransferMode) (ctx : RequestContext) (sourceUri targetUri : Str)
    (records : List (Str × Row P)) : Except TransferError (List (Str × Row P)) :=
  match records.mapM fun e => rewriteVectorRecord w mode ctx sourceUri targetUri e.2 with
  | .error e => .error (.invalid e)
  | .ok payloads => .ok payloads

end

end OpenViking.Query
