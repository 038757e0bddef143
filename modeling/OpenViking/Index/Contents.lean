/-
# `OpenViking.Index.Contents` — what an index contains

An index contains a catalog of records (`Carries`) if its labels and vectors are
those of the catalog, and every field has the records: its bitmaps hold each
record under the keys of its value and under no other (with the leading slash of
a path field, whose trie knows all its keys), and its ranged map has the number
of each record that has one.

`LocalIndex.upsert_data` and `delete_data` of `index/local_index.py` apply a list
of deltas.  A list whose old records are the ones in the index takes it to the
catalog the deltas lead to (`Carries.applyDeltas`).
-/
import OpenViking.Index.Equality
import OpenViking.Store.Deltas

namespace OpenViking.Index

open OpenViking.Lib OpenViking.Store

/-- How an index sees a stored record: `convert_fields_for_index`, and the vector,
normalized or not. -/
structure IndexView (D W V F : Type) where
  record : F → Record D
  vector : V → W

section

variable {D W V F : Type} [LinearOrder D] [DoubleArith D] (view : IndexView D W V F)

/-- The record in a catalog, as the index sees it -/
def IndexView.seen (p : Option (V × F)) : Option (Record D) := p.map fun p => view.record p.2

/-- The fields of a delta, as the index sees them -/
def IndexView.json (fields : Option F) : List (Member D) :=
  Record.json (fields.map view.record)

/-- One delta -/
def applyDelta (M : IndexManager D W) : DeltaRecord V F → Bool × IndexManager D W
  | .upsert label vector fields old =>
      M.addOne ⟨label, view.vector vector, (view.record fields).members, view.json old⟩
  | .delete label old => M.deleteOne ⟨label, view.json old⟩

/-- `upsert_data` of a list of upserts, `delete_data` of a list of deletions -/
def applyDeltas (M : IndexManager D W) (deltas : List (DeltaRecord V F)) : IndexManager D W :=
  M.applyAll (applyDelta view) deltas

/-! ## The index of a catalog -/

variable (schema : AList (fun _ : Str => FieldType))

/-- The index contains the catalog. -/
structure Carries (M : IndexManager D W) (c : Content V F) : Prop where
  indexed : Indexed schema M fun label => view.seen (c label)
  vector : ∀ label, M.vectors.vectorOf label = (c label).map fun p => view.vector p.1
  room : M.vectors.nextLogicalOffset ≤ 2 ^ 31

namespace Carries

variable {view schema} {M : IndexManager D W} {c : Content V F}

theorem new : Carries view schema (IndexManager.new W schema) (fun _ => none : Content V F) :=
  ⟨Indexed.new schema, fun _ => rfl, Nat.zero_le _⟩

theorem clearFilters (h : Carries view schema M c) : Carries view schema M.clearFilters c :=
  ⟨h.indexed.clearFilters, h.vector, h.room⟩

omit [LinearOrder D] [DoubleArith D] in
theorem seen_update (c : Content V F) (label : Nat) (p : Option (V × F)) :
    (fun l => view.seen (Function.update c label p l)) =
      Function.update (fun l => view.seen (c l)) label (view.seen p) := by
  funext l
  by_cases hl : l = label
  · simp [hl]
  · simp [hl]

omit [LinearOrder D] [DoubleArith D] in
/-- The old fields of a delta, as the request has them -/
theorem json_old {label : Nat} {old : Option F} (hd : old = (c label).map Prod.snd) :
    view.json old = Record.json (view.seen (c label)) := by
  rw [hd, IndexView.json, Option.map_map]
  rfl

theorem vectors_addOne (M : IndexManager D W) (req : AddDataRequest D W) :
    (M.addOne req).2.vectors = M.vectors.addPoint req.label req.vector := by
  unfold IndexManager.addOne
  dsimp only
  split <;> rfl

theorem upsert (h : Carries view schema M c) {label : Nat} (vector : V) (fields : F)
    {old : Option F} (hd : old = (c label).map Prod.snd)
    (hroom : M.vectors.nextLogicalOffset < 2 ^ 31) :
    let M' := (applyDelta view M (.upsert label vector fields old)).2
    Carries view schema M' (Function.update c label (some (vector, fields))) ∧
      M'.vectors.nextLogicalOffset ≤ M.vectors.nextLogicalOffset + 1 := by
  intro M'
  have hreq : M' = (M.addOne ⟨label, view.vector vector, (view.record fields).members,
      Record.json (view.seen (c label))⟩).2 := by
    rw [← json_old hd]
    rfl
  obtain ⟨hindexed, hnext⟩ := h.indexed.addOne label (view.vector vector) (view.record fields) hroom
  rw [← hreq] at hindexed hnext
  refine ⟨⟨?_, fun l => ?_, hnext.trans hroom⟩, hnext⟩
  · rw [seen_update]
    exact hindexed
  · rw [hreq, vectors_addOne, h.indexed.vectors.vectorOf_addPoint (by omega), h.vector]
    by_cases hl : l = label
    · simp [hl]
    · simp [hl]

/-- A deletion of a label that is not there does nothing. -/
theorem deleteOne_absent (h : Carries view schema M c) {label : Nat} (hl : c label = none)
    (old : List (Member D)) : M.deleteOne ⟨label, old⟩ = (false, M) := by
  have hoff := (h.indexed.present label).mpr (by rw [hl]; rfl)
  have hrow : M.vectors.rowOf label = none := Option.map_eq_none_iff.mp hoff
  simp only [IndexManager.deleteOne, BruteforceSearch.getOffsetByLabel, hrow]

theorem vectors_deleteOne (h : Carries view schema M c) {label : Nat} (old : List (Member D))
    (l : Nat) : (M.deleteOne ⟨label, old⟩).2.vectors.vectorOf l =
      if l = label then none else M.vectors.vectorOf l := by
  cases ho : M.vectors.offsetOf label with
  | none =>
      have hrow : M.vectors.rowOf label = none := Option.map_eq_none_iff.mp ho
      simp only [IndexManager.deleteOne, BruteforceSearch.getOffsetByLabel, hrow]
      split
      · next he => rw [he, BruteforceSearch.vectorOf, hrow]; rfl
      · rfl
  | some o =>
      have hlt := (h.indexed.vectors.offsetOf_lt ho).trans_le h.room
      simp only [IndexManager.deleteOne, getOffsetByLabel_eq ho hlt]
      exact h.indexed.vectors.vectorOf_removePoint label l

theorem delete (h : Carries view schema M c) {label : Nat} {old : Option F}
    (hd : c label = none ∨ old = (c label).map Prod.snd) :
    let M' := (applyDelta view M (.delete label old : DeltaRecord V F)).2
    Carries view schema M' (Function.update c label none) ∧
      M'.vectors.nextLogicalOffset ≤ M.vectors.nextLogicalOffset := by
  intro M'
  rcases hd with hnone | hd
  · have hM : M' = M := congrArg Prod.snd (h.deleteOne_absent hnone (view.json old))
    rw [hM, ← hnone, Function.update_eq_self]
    exact ⟨h, le_rfl⟩
  · have hreq : M' = (M.deleteOne ⟨label, Record.json (view.seen (c label))⟩).2 := by
      rw [← json_old hd]
      rfl
    obtain ⟨hindexed, hnext⟩ := h.indexed.deleteOne label h.room
    rw [← hreq] at hindexed hnext
    refine ⟨⟨?_, fun l => ?_, hnext.trans h.room⟩, hnext⟩
    · rw [seen_update]
      exact hindexed
    · rw [hreq, h.vectors_deleteOne, h.vector]
      by_cases hl : l = label
      · simp [hl]
      · simp [hl]

theorem foldl_applyDelta (deltas : List (DeltaRecord V F)) (updated : Bool)
    (h : Carries view schema M c) (hd : ProperAll c deltas)
    (hroom : M.vectors.nextLogicalOffset + deltas.length ≤ 2 ^ 31) :
    let M' := (deltas.foldl
      (fun st d => ((applyDelta view st.2 d).1 || st.1, (applyDelta view st.2 d).2)) (updated, M)).2
    Carries view schema M' (effects c deltas) ∧
      M'.vectors.nextLogicalOffset ≤ M.vectors.nextLogicalOffset + deltas.length := by
  induction deltas generalizing M c updated with
  | nil => exact ⟨h, le_rfl⟩
  | cons d deltas ih =>
      rw [List.length_cons] at hroom
      have hstep : Carries view schema (applyDelta view M d).2 (d.effect c) ∧
          (applyDelta view M d).2.vectors.nextLogicalOffset ≤
            M.vectors.nextLogicalOffset + 1 := by
        cases d with
        | upsert label vector fields old => exact h.upsert vector fields hd.1 (by omega)
        | delete label old => exact (h.delete hd.1).imp_right Nat.le_succ_of_le
      have hnext := (Nat.add_le_add_right hstep.2 deltas.length).trans
        (show M.vectors.nextLogicalOffset + 1 + deltas.length ≤ 2 ^ 31 by omega)
      obtain ⟨hrest, hle⟩ := ih ((applyDelta view M d).1 || updated) hstep.1 hd.2 hnext
      refine ⟨hrest, hle.trans ?_⟩
      rw [List.length_cons]
      omega

/-- A proper list of deltas takes the index to the content they lead to. -/
theorem applyDeltas (h : Carries view schema M c) {deltas : List (DeltaRecord V F)}
    (hd : ProperAll c deltas) (hroom : M.vectors.nextLogicalOffset + deltas.length ≤ 2 ^ 31) :
    Carries view schema (Index.applyDeltas view M deltas) (effects c deltas) := by
  have hfold := (foldl_applyDelta deltas false h hd hroom).1
  unfold Index.applyDeltas IndexManager.applyAll
  dsimp only
  split
  · exact hfold.clearFilters
  · exact hfold

end Carries

end

end OpenViking.Index
