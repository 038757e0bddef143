/-
# `OpenViking.Query.Compensation` — moves that fail half way

One call of the store fails in a move, having applied any of its rows.  A failed
write has the attempted ids deleted again; a failed deletion has the old records
written back and then the new ids deleted.  Either way what is deleted are the
records the account has under those ids, whoever wrote them, so the store is as
before exactly when no attempted id was in use (`failed_move_restores_iff`).  The
scan of the target does not find that out: it looks at URIs, and two URIs can
have one id.
-/
import OpenViking.Lib.Results
import OpenViking.Query.Scan

namespace OpenViking.Query

open OpenViking.Lib

variable {P : Type}

/-! ## Writing and deleting -/

/-- All records written, one after the other. -/
def insertAll (store : VectorStore P) (records : List (Str × Row P)) : VectorStore P :=
  records.foldl (fun s e => s.insert e.1 e.2) store

theorem map_fst_strictGet_sublist (store : VectorStore P) (ctx : RequestContext) (ids : List Str) :
    ((strictGet store ctx ids).map (·.1)).Sublist ids := by
  induction ids with
  | nil => exact List.Sublist.refl _
  | cons id ids ih =>
      unfold strictGet at ih ⊢
      rw [List.filterMap_cons]
      split
      · exact ih.cons id
      · next e he =>
          have : e.1 = id := by
            split at he
            · split at he
              · exact (Option.some.inj he) ▸ rfl
              · cases he
            · cases he
          rw [List.map_cons, this]
          exact ih.cons_cons id

theorem lookup_deleteIds (store : VectorStore P) (ids : List Str) (id : Str) :
    (deleteIds store ids).lookup id = if id ∈ ids then none else store.lookup id := by
  induction ids generalizing store with
  | nil => rfl
  | cons first ids ih =>
      rw [deleteIds, List.foldl_cons, ← deleteIds, ih]
      by_cases hfirst : id = first
      · subst hfirst
        simp [AList.lookup_erase]
      · simp [hfirst, AList.lookup_erase_ne hfirst]

theorem lookup_insertAll_of_notMem {store : VectorStore P} {records : List (Str × Row P)}
    {id : Str} (h : id ∉ records.map (·.1)) :
    (insertAll store records).lookup id = store.lookup id := by
  induction records generalizing store with
  | nil => rfl
  | cons e records ih =>
      rw [List.map_cons, List.mem_cons, not_or] at h
      rw [insertAll, List.foldl_cons, ← insertAll, ih h.2, AList.lookup_insert_ne h.1]

/-- The last record written under an id is there. -/
theorem lookup_insertAll_of_mem (store : VectorStore P) {records : List (Str × Row P)} {id : Str}
    (h : id ∈ records.map (·.1)) :
    ∃ row, (id, row) ∈ records ∧ (insertAll store records).lookup id = some row := by
  induction records generalizing store with
  | nil => cases h
  | cons e records ih =>
      rw [insertAll, List.foldl_cons, ← insertAll]
      by_cases hlater : id ∈ records.map (·.1)
      · obtain ⟨row, hrow, hlookup⟩ := ih _ hlater
        exact ⟨row, List.mem_cons_of_mem _ hrow, hlookup⟩
      · obtain rfl : id = e.1 := by
          rw [List.map_cons, List.mem_cons] at h
          exact h.resolve_right hlater
        exact ⟨e.2, List.mem_cons_self, by
          rw [lookup_insertAll_of_notMem hlater, AList.lookup_insert]⟩

/-! ## Calls that fail -/

/-- A call that raises, or reports a short count: which one it is and the rows it has applied. -/
structure Fault where
  /-- a batch of the deletions, else one of the writes -/
  deleting : Bool
  batch : Nat
  applied : Str → Bool
  message : String

/-- The fault, if it is of this call. -/
def striking (fault : Option Fault) (deleting : Bool) (i : Nat) : Option Fault :=
  fault.filter fun f => f.deleting == deleting && f.batch == i

/-- The rows of a batch that a failing call has written. -/
def Fault.rows (f : Fault) (batch : List (Str × Row P)) : List (Str × Row P) :=
  batch.filter fun e => f.applied e.1

theorem Fault.rows_subset (f : Fault) (batch : List (Str × Row P)) : f.rows batch ⊆ batch :=
  List.filter_subset_self batch

/-- `upsert_many`, with the store it leaves when it fails -/
def upsertManyWith (struck : Option Fault) (store : VectorStore P) (batch : List (Str × Row P)) :
    Except (TransferError × VectorStore P) (VectorStore P) :=
  match upsertMany store batch with
  | .error e => .error (e, store)
  | .ok store' =>
      match struck with
      | some f => .error (.raised f.message, insertAll store (f.rows batch))
      | none => .ok store'

/-- The writes of a transfer, from the batch with number `i` on -/
def writeBatchesWith (fault : Option Fault) (ctx : RequestContext) :
    Nat → VectorStore P → List Str → List (List (Str × Row P)) →
    Except (TransferError × VectorStore P) (VectorStore P)
  | _, store, _, [] => .ok store
  | i, store, attempted, batch :: rest =>
      let attempted := attempted ++ batch.map (·.1)
      match upsertManyWith (striking fault false i) store batch with
      | .error (e, store) => .error (cleanUp ctx e store attempted)
      | .ok store => writeBatchesWith fault ctx (i + 1) store attempted rest

/-- The deletions of a move, from the batch with number `i` on -/
def deleteBatchesWith (fault : Option Fault) (ctx : RequestContext) :
    Nat → VectorStore P → List (List Str) →
    Except (TransferError × VectorStore P) (VectorStore P)
  | _, store, [] => .ok store
  | i, store, batch :: rest =>
      let found := (strictGet store ctx batch).map (·.1)
      match striking fault true i with
      | some f => .error (.raised f.message, deleteIds store (found.filter f.applied))
      | none =>
          let store := deleteIds store found
          if found.length ≠ batch.length then .error (.notDeleted found.length batch.length, store)
          else deleteBatchesWith fault ctx (i + 1) store rest

/-- `update_uri_mapping`, where a call may fail -/
def updateUriMappingWith (w : Rewriting P) (fault : Option Fault) (store : VectorStore P)
    (ctx : RequestContext) (sourceUri targetUri : Str) (recursive : Bool) :
    Except (TransferError × VectorStore P) (VectorStore P × VectorTransferResult) :=
  match collectSource store ctx sourceUri targetUri recursive with
  | .error e => .error (e, store)
  | .ok (records, batches) =>
      match targetPayloads w .move ctx sourceUri targetUri records with
      | .error e => .error (e, store)
      | .ok payloads =>
          match writeBatchesWith fault ctx 0 store [] (slices 100 payloads.length payloads) with
          | .error e => .error e
          | .ok written =>
              let sourceIds := records.map (·.1)
              match deleteBatchesWith fault ctx 0 written
                  (slices 100 sourceIds.length sourceIds) with
              | .error (e, left) => .error (restore ctx e left records (payloads.map (·.1)))
              | .ok store' =>
                  .ok (store', ⟨records.length, batches, payloads.length, sourceIds.length⟩)

section

variable {ctx : RequestContext}

/-! ## What was attempted and what was written -/

/-- The ids of the batches up to the one that fails. -/
def attemptedIds (fault : Option Fault) : Nat → List (List (Str × Row P)) → List Str
  | _, [] => []
  | i, batch :: rest =>
      batch.map (·.1) ++
        if (batch.map (·.1)).Nodup ∧ striking fault false i = none then
          attemptedIds fault (i + 1) rest
        else []

/-- The rows that have got into the store by then. -/
def writtenRows (fault : Option Fault) : Nat → List (List (Str × Row P)) → List (Str × Row P)
  | _, [] => []
  | i, batch :: rest =>
      if (batch.map (·.1)).Nodup then
        match striking fault false i with
        | some f => f.rows batch
        | none => batch ++ writtenRows fault (i + 1) rest
      else []

theorem writtenRows_subset (fault : Option Fault) (i : Nat) (batches : List (List (Str × Row P))) :
    writtenRows fault i batches ⊆ batches.flatten := by
  induction batches generalizing i with
  | nil => exact List.Subset.refl _
  | cons batch rest ih =>
      rw [writtenRows, List.flatten_cons]
      split
      · split
        · exact List.Subset.trans (Fault.rows_subset _ _) (List.subset_append_left _ _)
        · exact List.append_subset.mpr ⟨List.subset_append_left _ _,
            List.Subset.trans (ih (i + 1)) (List.subset_append_right _ _)⟩
      · exact List.nil_subset _

/-- Nothing is written that was not attempted. -/
theorem map_fst_writtenRows_subset (fault : Option Fault) (i : Nat)
    (batches : List (List (Str × Row P))) :
    (writtenRows fault i batches).map (·.1) ⊆ attemptedIds fault i batches := by
  induction batches generalizing i with
  | nil => exact List.Subset.refl _
  | cons batch rest ih =>
      rw [writtenRows, attemptedIds]
      by_cases hnodup : (batch.map (·.1)).Nodup
      · rw [if_pos hnodup]
        cases hstruck : striking fault false i with
        | some f =>
            exact List.Subset.trans (List.map_subset _ (f.rows_subset batch))
              (List.subset_append_left _ _)
        | none =>
            rw [if_pos ⟨hnodup, rfl⟩, List.map_append]
            exact List.append_subset.mpr ⟨List.subset_append_left _ _,
              List.Subset.trans (ih (i + 1)) (List.subset_append_right _ _)⟩
      · rw [if_neg hnodup]
        exact List.nil_subset _

theorem insertAll_append (store : VectorStore P) (xs ys : List (Str × Row P)) :
    insertAll store (xs ++ ys) = insertAll (insertAll store xs) ys :=
  List.foldl_append

/-- A write that does not fail has written all there is to write. -/
theorem writeBatchesWith_eq_ok {fault : Option Fault} {i : Nat} {store store' : VectorStore P}
    {attempted : List Str} {batches : List (List (Str × Row P))}
    (h : writeBatchesWith fault ctx i store attempted batches = .ok store') :
    store' = insertAll store batches.flatten ∧ writtenRows fault i batches = batches.flatten ∧
      attemptedIds fault i batches = batches.flatten.map (·.1) := by
  induction batches generalizing i store attempted with
  | nil => exact ⟨(Except.ok.inj h).symm, rfl, rfl⟩
  | cons batch rest ih =>
      rw [writeBatchesWith, upsertManyWith, upsertMany] at h
      by_cases hnodup : (batch.map (·.1)).Nodup
      · rw [if_pos hnodup] at h
        cases hstruck : striking fault false i with
        | some f =>
            rw [hstruck] at h
            cases h
        | none =>
            rw [hstruck] at h
            obtain ⟨hstore, hrows, hids⟩ := ih h
            rw [writtenRows, attemptedIds, if_pos hnodup, if_pos ⟨hnodup, hstruck⟩, hstruck,
              List.flatten_cons, List.map_append, insertAll_append]
            exact ⟨hstore, congrArg (batch ++ ·) hrows, congrArg (batch.map (·.1) ++ ·) hids⟩
      · rw [if_neg hnodup] at h
        cases h

/-- A write that fails ends with the deletion of what was attempted. -/
theorem writeBatchesWith_eq_error {fault : Option Fault} {i : Nat} {store : VectorStore P}
    {attempted : List Str} {batches : List (List (Str × Row P))}
    {failed : TransferError × VectorStore P}
    (h : writeBatchesWith fault ctx i store attempted batches = .error failed) :
    ∃ e, failed = cleanUp ctx e (insertAll store (writtenRows fault i batches))
      (attempted ++ attemptedIds fault i batches) := by
  induction batches generalizing i store attempted with
  | nil => cases h
  | cons batch rest ih =>
      rw [writeBatchesWith, upsertManyWith, upsertMany] at h
      rw [writtenRows, attemptedIds]
      by_cases hnodup : (batch.map (·.1)).Nodup
      · rw [if_pos hnodup] at h ⊢
        cases hstruck : striking fault false i with
        | some f =>
            rw [hstruck] at h
            rw [if_neg (by rintro ⟨-, hnone⟩; cases hnone), List.append_nil]
            exact ⟨_, (Except.error.inj h).symm⟩
        | none =>
            rw [hstruck] at h
            obtain ⟨e, he⟩ := ih h
            rw [List.append_assoc] at he
            rw [if_pos ⟨hnodup, rfl⟩]
            exact ⟨e, he.trans (by rw [insertAll_append]; rfl)⟩
      · rw [if_neg hnodup] at h ⊢
        rw [if_neg (fun hboth => hnodup hboth.1), List.append_nil]
        exact ⟨_, (Except.error.inj h).symm⟩

/-- Deletions that fail have removed some of the ids. -/
theorem deleteBatchesWith_eq_error {fault : Option Fault} {i : Nat} {store left : VectorStore P}
    {batches : List (List Str)} {e : TransferError}
    (h : deleteBatchesWith fault ctx i store batches = .error (e, left)) :
    ∃ gone, gone ⊆ batches.flatten ∧ left = deleteIds store gone := by
  induction batches generalizing i store with
  | nil => cases h
  | cons batch rest ih =>
      have hfound := (map_fst_strictGet_sublist store ctx batch).subset
      rw [deleteBatchesWith] at h
      cases hstruck : striking fault true i with
      | some f =>
          rw [hstruck] at h
          refine ⟨_, ?_, (Prod.mk.inj (Except.error.inj h)).2.symm⟩
          exact List.Subset.trans (List.filter_subset_self _)
            (List.Subset.trans hfound (List.subset_append_left _ _))
      | none =>
          rw [hstruck] at h
          dsimp only at h
          split at h
          · refine ⟨_, ?_, (Prod.mk.inj (Except.error.inj h)).2.symm⟩
            exact List.Subset.trans hfound (List.subset_append_left _ _)
          · obtain ⟨gone, hgone, hleft⟩ := ih h
            refine ⟨(strictGet store ctx batch).map (·.1) ++ gone, ?_, ?_⟩
            · exact List.append_subset.mpr
                ⟨List.Subset.trans hfound (List.subset_append_left _ _),
                  List.Subset.trans hgone (List.subset_append_right _ _)⟩
            · rw [hleft, deleteIds, deleteIds, deleteIds, List.foldl_append]

/-! ## Taking ids back -/

/-- The record under an id, unless the account owns it. -/
def foreign (ctx : RequestContext) (found : Option (Row P)) : Option (Row P) :=
  found.filter fun row => decide (row.accountId ≠ ctx.user.accountId)

theorem foreign_eq_none {found : Option (Row P)}
    (h : ∀ row, found = some row → row.accountId = ctx.user.accountId) :
    foreign ctx found = none := by
  cases found with
  | none => rfl
  | some row => simp [foreign, h row rfl]

theorem foreign_eq_self_iff {found : Option (Row P)} :
    foreign ctx found = found ↔ ∀ row, found = some row → row.accountId ≠ ctx.user.accountId := by
  cases found with
  | none => simp [foreign]
  | some row => simp [foreign]

@[simp] theorem foreign_foreign (found : Option (Row P)) :
    foreign ctx (foreign ctx found) = foreign ctx found := by
  simp [foreign, Option.filter_filter]

theorem mem_map_fst_strictGet {store : VectorStore P} {ids : List Str} {id : Str} :
    id ∈ (strictGet store ctx ids).map (·.1) ↔
      id ∈ ids ∧ ∃ row, store.lookup id = some row ∧ row.accountId = ctx.user.accountId := by
  rw [strictGet, List.mem_map]
  constructor
  · rintro ⟨⟨id', row⟩, hmem, rfl⟩
    obtain ⟨id, hid, hrow⟩ := List.mem_filterMap.mp hmem
    split at hrow
    · next found hfound =>
        split at hrow
        · next hacc =>
            obtain ⟨rfl, rfl⟩ := Prod.mk.inj (Option.some.inj hrow)
            exact ⟨hid, found, hfound, hacc⟩
        · cases hrow
    · cases hrow
  · rintro ⟨hid, row, hrow, hacc⟩
    exact ⟨(id, row), List.mem_filterMap.mpr ⟨id, hid, by simp [hrow, hacc]⟩, rfl⟩

/-- One batch of deletions, seen at one id. -/
theorem lookup_strictDelete (store : VectorStore P) (batch : List Str) (id : Str) :
    (deleteIds store ((strictGet store ctx batch).map (·.1))).lookup id =
      if id ∈ batch then foreign ctx (store.lookup id) else store.lookup id := by
  rw [lookup_deleteIds]
  by_cases hid : id ∈ batch
  · rw [if_pos hid]
    cases hrow : store.lookup id with
    | none => exact ite_self none
    | some row =>
        by_cases hacc : row.accountId = ctx.user.accountId
        · rw [if_pos (mem_map_fst_strictGet.mpr ⟨hid, row, hrow, hacc⟩)]
          exact (foreign_eq_none fun r hr => Option.some.inj hr ▸ hacc).symm
        · have hout : id ∉ (strictGet store ctx batch).map (·.1) := by
            intro hmem
            obtain ⟨-, row', hrow', hacc'⟩ := mem_map_fst_strictGet.mp hmem
            exact hacc ((Option.some.inj (hrow.symm.trans hrow')) ▸ hacc')
          rw [if_neg hout]
          exact (foreign_eq_self_iff.mpr fun r hr => Option.some.inj hr ▸ hacc).symm
  · rw [if_neg hid, if_neg (fun h => hid (mem_map_fst_strictGet.mp h).1)]

/-- Nothing of the account is left under the ids of a batch, so the check after it passes. -/
theorem strictGet_strictDelete (store : VectorStore P) (batch : List Str) :
    strictGet (deleteIds store ((strictGet store ctx batch).map (·.1))) ctx batch = [] := by
  rw [← List.map_eq_nil_iff (f := (·.1)), List.eq_nil_iff_forall_not_mem]
  intro id hmem
  obtain ⟨hid, row, hrow, hacc⟩ := mem_map_fst_strictGet.mp hmem
  rw [lookup_strictDelete, if_pos hid] at hrow
  have hown := (Option.filter_eq_some_iff.mp hrow).2
  exact (of_decide_eq_true hown) hacc

theorem deleteVectorTransferIds_eq (store : VectorStore P) (batches : List (List Str)) :
    ∃ store', deleteVectorTransferIds ctx store batches = .ok store' ∧
      ∀ id, store'.lookup id =
        if id ∈ batches.flatten then foreign ctx (store.lookup id) else store.lookup id := by
  induction batches generalizing store with
  | nil => exact ⟨store, rfl, fun id => rfl⟩
  | cons batch rest ih =>
      obtain ⟨store', heq, hlookup⟩ := ih (deleteIds store ((strictGet store ctx batch).map (·.1)))
      refine ⟨store', ?_, ?_⟩
      · rw [deleteVectorTransferIds, if_neg (not_not.mpr (strictGet_strictDelete store batch))]
        exact heq
      · intro id
        rw [hlookup, lookup_strictDelete, List.flatten_cons]
        by_cases hbatch : id ∈ batch <;> by_cases hrest : id ∈ rest.flatten <;>
          simp [hbatch, hrest]

/-- After a failure the account has no record under the attempted ids. -/
theorem cleanUp_eq (e : TransferError) (store : VectorStore P) (ids : List Str) :
    ∃ store', cleanUp ctx e store ids = (e, store') ∧
      ∀ id, store'.lookup id =
        if id ∈ ids then foreign ctx (store.lookup id) else store.lookup id := by
  obtain ⟨store', heq, hlookup⟩ :=
    deleteVectorTransferIds_eq store (slices 100 ids.length ids)
  rw [flatten_slices (by decide) le_rfl] at hlookup
  exact ⟨store', by rw [cleanUp, heq], hlookup⟩

/-- The store is as before when the attempted ids are. -/
theorem cleanUp_restores_iff {e e' : TransferError} {store before store' : VectorStore P}
    {ids : List Str} (h : cleanUp ctx e store ids = (e', store'))
    (hout : ∀ id, id ∉ ids → store.lookup id = before.lookup id) :
    (∀ id, store'.lookup id = before.lookup id) ↔
      ∀ id ∈ ids, foreign ctx (store.lookup id) = before.lookup id := by
  obtain ⟨left, heq, hlookup⟩ : ∃ left, cleanUp ctx e store ids = (e, left) ∧
      ∀ id, left.lookup id =
        if id ∈ ids then foreign ctx (store.lookup id) else store.lookup id :=
    cleanUp_eq e store ids
  obtain rfl := (Prod.mk.inj (h.symm.trans heq)).2
  constructor
  · intro hsame id hid
    rw [← hsame id, hlookup, if_pos hid]
  · intro hin id
    rw [hlookup]
    split
    · next hid => exact hin id hid
    · next hid => exact hout id hid

/-- The ids were not in use: not by the account, and if written to by nobody. -/
def Unused (ctx : RequestContext) (store : VectorStore P) (ids : List Str)
    (rows : List (Str × Row P)) : Prop :=
  ∀ id ∈ ids, ∀ row, store.lookup id = some row →
    row.accountId ≠ ctx.user.accountId ∧ id ∉ rows.map (·.1)

/-- Taking back what was written. -/
theorem cleanUp_insertAll_iff {e e' : TransferError} {store store' : VectorStore P}
    {rows : List (Str × Row P)} {ids : List Str}
    (h : cleanUp ctx e (insertAll store rows) ids = (e', store'))
    (hids : rows.map (·.1) ⊆ ids) (hrows : ∀ r ∈ rows, r.2.accountId = ctx.user.accountId) :
    (∀ id, store'.lookup id = store.lookup id) ↔ Unused ctx store ids rows := by
  rw [cleanUp_restores_iff h
    (fun id hid => lookup_insertAll_of_notMem (fun hmem => hid (hids hmem)))]
  refine forall₂_congr fun id hid => ?_
  by_cases hrow : id ∈ rows.map (·.1)
  · obtain ⟨row, hmem, hlookup⟩ := lookup_insertAll_of_mem store hrow
    rw [hlookup, foreign_eq_none (fun r hr => Option.some.inj hr ▸ hrows _ hmem)]
    constructor
    · intro hnone old hold
      rw [hold] at hnone
      cases hnone
    · intro hunused
      cases hold : store.lookup id with
      | none => rfl
      | some old => exact absurd hrow (hunused old hold).2
  · rw [lookup_insertAll_of_notMem hrow, foreign_eq_self_iff]
    exact forall₂_congr fun old hold => (and_iff_left hrow).symm

/-- Writing the old records back and then taking back the new ones. -/
theorem restore_iff {e e' : TransferError} {store store' : VectorStore P}
    {records payloads : List (Str × Row P)} {gone : List Str}
    (h : restore ctx e (deleteIds (insertAll store payloads) gone) records
      (payloads.map (·.1)) = (e', store')) (he : e' ≠ .rollback)
    (hgone : gone ⊆ records.map (·.1))
    (hold : ∀ r ∈ records, store.lookup r.1 = some r.2 ∧ r.2.accountId = ctx.user.accountId)
    (hnew : ∀ r ∈ payloads, r.2.accountId = ctx.user.accountId) :
    (∀ id, store'.lookup id = store.lookup id) ↔
      Unused ctx store (payloads.map (·.1)) payloads := by
  rw [restore, upsertMany] at h
  by_cases hnodup : (records.map (·.1)).Nodup
  · rw [if_pos hnodup] at h
    replace h : cleanUp ctx e (insertAll (deleteIds (insertAll store payloads) gone) records)
      (payloads.map (·.1)) = (e', store') := h
    -- a record of the source is back; what else the move did not write is as it was
    have hout : ∀ id, id ∉ payloads.map (·.1) →
        (insertAll (deleteIds (insertAll store payloads) gone) records).lookup id =
          store.lookup id := by
      intro id hid
      by_cases hrec : id ∈ records.map (·.1)
      · obtain ⟨row, hmem, hlookup⟩ := lookup_insertAll_of_mem
          (deleteIds (insertAll store payloads) gone) hrec
        exact hlookup.trans (hold _ hmem).1.symm
      · rw [lookup_insertAll_of_notMem hrec, lookup_deleteIds,
          if_neg (fun hmem => hrec (hgone hmem)), lookup_insertAll_of_notMem hid]
    rw [cleanUp_restores_iff h hout]
    refine forall₂_congr fun id hid => ?_
    -- whatever is under a new id now belongs to the account
    have hown : ∀ row,
        (insertAll (deleteIds (insertAll store payloads) gone) records).lookup id = some row →
          row.accountId = ctx.user.accountId := by
      intro row hrow
      by_cases hrec : id ∈ records.map (·.1)
      · obtain ⟨row', hmem, hlookup⟩ := lookup_insertAll_of_mem
          (deleteIds (insertAll store payloads) gone) hrec
        exact Option.some.inj (hlookup.symm.trans hrow) ▸ (hold _ hmem).2
      · rw [lookup_insertAll_of_notMem hrec, lookup_deleteIds,
          if_neg (fun hmem => hrec (hgone hmem))] at hrow
        obtain ⟨row', hmem, hlookup⟩ := lookup_insertAll_of_mem store hid
        exact Option.some.inj (hlookup.symm.trans hrow) ▸ hnew _ hmem
    rw [foreign_eq_none hown]
    constructor
    · intro hnone row hrow
      rw [hrow] at hnone
      cases hnone
    · intro hunused
      cases hrow : store.lookup id with
      | none => rfl
      | some row => exact absurd hid (hunused row hrow).2
  · rw [if_neg hnodup] at h
    exact absurd (Prod.mk.inj h).1.symm he

end

/-! ## The move -/

section

variable {w : Rewriting P} {store : VectorStore P} {ctx : RequestContext} {source target : Str}
  {recursive : Bool}

theorem accountId_of_targetPayloads {mode : TransferMode} {records payloads : List (Str × Row P)}
    (h : targetPayloads w mode ctx source target records = .ok payloads) :
    ∀ r ∈ payloads, r.2.accountId = ctx.user.accountId := by
  intro r hr
  unfold targetPayloads at h
  split at h
  · cases h
  · next out hout =>
      obtain rfl := Except.ok.inj h
      obtain ⟨e, -, he⟩ := (mem_of_mapM_eq_ok hout).1 r hr
      rw [rewriteVectorRecord] at he
      cases huri : rewriteTransferUri e.2.uri source target with
      | error m => rw [huri] at he; cases he
      | ok uri =>
          rw [huri] at he
          change (ownerSpaceForUri uri >>= fun space => _) = _ at he
          cases hspace : ownerSpaceForUri uri with
          | error m => rw [hspace] at he; cases he
          | ok space =>
              rw [hspace] at he
              change (contextTypeForUri uri >>= fun type => _) = _ at he
              cases htype : contextTypeForUri uri with
              | error m => rw [htype] at he; cases he
              | ok type =>
                  rw [htype] at he
                  exact (Except.ok.inj he) ▸ rfl

/-- How a move can fail: before it writes, while it writes or while it deletes. -/
theorem updateUriMappingWith_eq_error {fault : Option Fault}
    {failed : TransferError × VectorStore P}
    (h : updateUriMappingWith w fault store ctx source target recursive = .error failed) :
    (failed.2 = store ∧ ∀ records n payloads,
      collectSource store ctx source target recursive = .ok (records, n) →
        targetPayloads w .move ctx source target records ≠ .ok payloads) ∨
    ∃ records n payloads, collectSource store ctx source target recursive = .ok (records, n) ∧
      targetPayloads w .move ctx source target records = .ok payloads ∧
      (writeBatchesWith fault ctx 0 store [] (slices 100 payloads.length payloads) =
          .error failed ∨
        ∃ written cause left,
          writeBatchesWith fault ctx 0 store [] (slices 100 payloads.length payloads) =
            .ok written ∧
          deleteBatchesWith fault ctx 0 written
            (slices 100 (records.map (·.1)).length (records.map (·.1))) = .error (cause, left) ∧
          failed = restore ctx cause left records (payloads.map (·.1))) := by
  unfold updateUriMappingWith at h
  split at h
  · next e hcollect =>
      obtain rfl := Except.error.inj h
      refine Or.inl ⟨rfl, fun records n payloads hrecords => ?_⟩
      cases hcollect.symm.trans hrecords
  · next records n hcollect =>
      split at h
      · next e hpayloads =>
          obtain rfl := Except.error.inj h
          refine Or.inl ⟨rfl, fun records' n' payloads hrecords hok => ?_⟩
          obtain ⟨rfl, rfl⟩ := Prod.mk.inj (Except.ok.inj (hcollect.symm.trans hrecords))
          cases hpayloads.symm.trans hok
      · next payloads hpayloads =>
          refine Or.inr ⟨records, n, payloads, hcollect, hpayloads, ?_⟩
          split at h
          · next e hwrite =>
              obtain rfl := Except.error.inj h
              exact Or.inl hwrite
          · next written hwrite =>
              dsimp only at h
              split at h
              · next cause left hdelete =>
                  exact Or.inr ⟨written, cause, left, hwrite, hdelete, (Except.error.inj h).symm⟩
              · cases h

end

/-- No id that the move attempts to write was in use, if it comes to writing. -/
def TargetsUnused (w : Rewriting P) (fault : Option Fault) (store : VectorStore P)
    (ctx : RequestContext) (source target : Str) (recursive : Bool) : Prop :=
  ∀ records n payloads, collectSource store ctx source target recursive = .ok (records, n) →
    targetPayloads w .move ctx source target records = .ok payloads →
    Unused ctx store (attemptedIds fault 0 (slices 100 payloads.length payloads))
      (writtenRows fault 0 (slices 100 payloads.length payloads))

theorem targetsUnused_iff {w : Rewriting P} {fault : Option Fault} {store : VectorStore P}
    {ctx : RequestContext} {source target : Str} {recursive : Bool}
    {records payloads : List (Str × Row P)} {n : Nat}
    (hcollect : collectSource store ctx source target recursive = .ok (records, n))
    (hpayloads : targetPayloads w .move ctx source target records = .ok payloads) :
    TargetsUnused w fault store ctx source target recursive ↔
      Unused ctx store (attemptedIds fault 0 (slices 100 payloads.length payloads))
        (writtenRows fault 0 (slices 100 payloads.length payloads)) := by
  constructor
  · intro hall
    exact hall records n payloads hcollect hpayloads
  · intro hunused records' n' payloads' hcollect' hpayloads'
    obtain ⟨rfl, rfl⟩ := Prod.mk.inj (Except.ok.inj (hcollect.symm.trans hcollect'))
    obtain rfl := Except.ok.inj (hpayloads.symm.trans hpayloads')
    exact hunused

/-- A move that fails, and says nothing of an incomplete rollback, leaves the store as it was
exactly when no id it attempted to write was in use. -/
theorem failed_move_restores_iff (w : Rewriting P) (fault : Option Fault) (store : VectorStore P)
    (ctx : RequestContext) (source target : Str) (recursive : Bool) {e : TransferError}
    {store' : VectorStore P}
    (h : updateUriMappingWith w fault store ctx source target recursive = .error (e, store'))
    (he : e ≠ .rollback) :
    (∀ id, store'.lookup id = store.lookup id) ↔
      TargetsUnused w fault store ctx source target recursive := by
  obtain ⟨rfl, hnone⟩ | ⟨records, n, payloads, hcollect, hpayloads, hfailed⟩ :=
    updateUriMappingWith_eq_error h
  · exact iff_of_true (fun id => rfl) fun records n payloads hcollect hpayloads =>
      absurd hpayloads (hnone records n payloads hcollect)
  · rw [targetsUnused_iff hcollect hpayloads]
    have hnew := accountId_of_targetPayloads hpayloads
    obtain hwrite | ⟨written, cause, left, hwrite, hdelete, hrestore⟩ := hfailed
    · obtain ⟨cause, hcause⟩ := writeBatchesWith_eq_error hwrite
      refine cleanUp_insertAll_iff hcause.symm (map_fst_writtenRows_subset fault 0 _) ?_
      intro r hr
      have hmem := writtenRows_subset fault 0 _ hr
      rw [flatten_slices (by decide) le_rfl] at hmem
      exact hnew r hmem
    · obtain ⟨rfl, hrows, hids⟩ := writeBatchesWith_eq_ok hwrite
      obtain ⟨gone, hgone, rfl⟩ := deleteBatchesWith_eq_error hdelete
      rw [flatten_slices (by decide) le_rfl] at hrows hids hrestore hgone
      rw [hrows, hids]
      refine restore_iff hrestore.symm he hgone ?_ hnew
      intro r hr
      rw [collectSource_eq_ok hcollect] at hr
      obtain ⟨hlookup, hin, -⟩ := mem_scanResult.mp hr
      exact ⟨hlookup, hin.1⟩

namespace Sample

/-- Ids are not digested. -/
def plain : Rewriting Unit := ⟨id, fun _ _ _ => ()⟩

/-- A record of the text of a resource. -/
def resource (uri : Str) : Row Unit :=
  ⟨alice.user.accountId, encodeUri uri, 2, none, [], .resource, ()⟩

/-- The store has the text of one resource. -/
def storing (uri : Str) : VectorStore Unit :=
  (∅ : VectorStore Unit).insert (vectorRecordId plain alice.user.accountId uri 2) (resource uri)

def here : Str := "viking://resources/a.md".toList

def there : Str := "viking://resources/b.md".toList

/-- The first write fails after all its rows have been applied. -/
def lateTimeout : Fault := ⟨false, 0, fun _ => true, "timed out"⟩

/-- The first write fails at once. -/
def refused : Fault := ⟨false, 0, fun _ => false, "connection refused"⟩

theorem raised_ne_rollback (message : String) : TransferError.raised message ≠ .rollback := by
  intro h
  cases h

/-- A resource beside the one that is moved, and one of the same text in another account -/
def beside : VectorStore Unit :=
  let other := "viking://resources/c.md".toList
  ((storing here).insert (vectorRecordId plain alice.user.accountId other 2)
    (resource other)).insert
    (vectorRecordId plain "globex".toList here 2)
    { resource here with accountId := "globex".toList }

/-- The record is moved to a free id, and all others stay. -/
theorem late_timeout_restored :
    ∃ e store', updateUriMappingWith plain (some lateTimeout) beside alice here there true =
      .error (e, store') ∧ e ≠ .rollback ∧ beside.keys.length = 3 ∧
      ∀ id, store'.lookup id = beside.lookup id := by
  refine ⟨.raised "timed out", _, rfl, raised_ne_rollback _, rfl, ?_⟩
  refine (failed_move_restores_iff plain (some lateTimeout) beside alice here there true rfl
    (raised_ne_rollback _)).mpr ((targetsUnused_iff rfl rfl).mpr ?_)
  intro id hid row hrow
  rw [List.mem_singleton.mp hid] at hrow
  cases hrow

/-- A directory and the place of its abstract. -/
def dir : Str := "viking://resources/b".toList

def dirAbstract : Str := "viking://resources/b/.abstract.md".toList

/-- The abstract of a directory, as it is stored. -/
def abstractRow : Row Unit := ⟨alice.user.accountId, encodeUri dir, 0, none, [], .resource, ()⟩

def withAbstract : VectorStore Unit :=
  (storing here).insert (vectorRecordId plain alice.user.accountId dir 0) abstractRow

/-- A text is moved to where the abstract of a directory would be.  The scan does not see the
abstract, whose URI is that of the directory, but it has the id of the new record.  The write is
refused, and the abstract is deleted. -/
theorem refused_write_deletes_abstract :
    ∃ e store', updateUriMappingWith plain (some refused) withAbstract alice here dirAbstract true =
      .error (e, store') ∧ e ≠ .rollback ∧
      withAbstract.lookup (vectorRecordId plain alice.user.accountId dir 0) = some abstractRow ∧
      store'.lookup (vectorRecordId plain alice.user.accountId dir 0) = none := by
  exact ⟨.raised "connection refused", _, rfl, raised_ne_rollback _, rfl, rfl⟩

end Sample

end OpenViking.Query
