/-
# `OpenViking.Index.Bruteforce` — the vector index

`vector/common/bruteforce.h`: rows in a buffer, and two maps into it, by label
and by logical offset.  A removed row is filled with the last one.  Offsets are
drawn from a counter and never given back; they are stored in 32 bits.  The maps
of the source hold row numbers as `int`, so this is a model of buffers with fewer
than 2^31 rows; what is proved of whole histories asks for no more.

The score of a row for a query is a parameter; the scores are totally ordered.
-/
import OpenViking.Index.Bitmap
import OpenViking.Lib.Filing
import Mathlib.Data.Finset.Sort
import Mathlib.Data.Prod.Lex

namespace OpenViking.Index

open OpenViking.Lib

/-- An element of `data_buffer_`, with its row of the sparse index. -/
structure VectorRow (V : Type) where
  vector : V
  label : Nat
  offset : Nat
  deriving DecidableEq, Repr

/-- `BruteforceSearch` -/
structure BruteforceSearch (V : Type) where
  rows : List (VectorRow V)
  labelMap : AList (fun _ : Nat => Nat)
  offsetMap : AList (fun _ : Nat => Nat)
  nextLogicalOffset : Nat

namespace BruteforceSearch

variable {V : Type}

def empty : BruteforceSearch V := ⟨[], ∅, ∅, 0⟩

/-- `add_point`: a known label gets the new vector in place. -/
def addPoint (s : BruteforceSearch V) (label : Nat) (vector : V) : BruteforceSearch V :=
  match s.labelMap.lookup label with
  | some index => { s with rows := s.rows.modify index fun r => { r with vector, label } }
  | none =>
      let offset := s.nextLogicalOffset % 2 ^ 32
      { rows := s.rows ++ [⟨vector, label, offset⟩]
        labelMap := s.labelMap.insert label s.rows.length
        offsetMap := s.offsetMap.insert offset s.rows.length
        nextLogicalOffset := s.nextLogicalOffset + 1 }

/-- `remove_point` -/
def removePoint (s : BruteforceSearch V) (label : Nat) : BruteforceSearch V :=
  match s.labelMap.lookup label with
  | none => s
  | some index =>
      match s.rows[index]?, s.rows.getLast? with
      | some removed, some last =>
          { s with
            rows := swapRemove s.rows index last
            labelMap := swapRemoveKey s.labelMap s.rows (·.label) index removed last
            offsetMap := swapRemoveKey s.offsetMap s.rows (·.offset) index removed last }
      | _, _ => s

/-- The row of a label -/
def rowOf (s : BruteforceSearch V) (label : Nat) : Option (VectorRow V) :=
  find s.labelMap s.rows label

/-- The row at an offset -/
def rowAt (s : BruteforceSearch V) (offset : Nat) : Option (VectorRow V) :=
  find s.offsetMap s.rows offset

/-- `get_offset_by_label`, returned as an `int`: a negative answer, also of an
offset that does not fit, is read as "not there". -/
def getOffsetByLabel (s : BruteforceSearch V) (label : Nat) : Option Nat :=
  match s.rowOf label with
  | some r => if r.offset < 2 ^ 31 then some r.offset else none
  | none => none

/-- `get_label_by_offset`; none is the label `-1`. -/
def getLabelByOffset (s : BruteforceSearch V) (offset : Nat) : Option Nat :=
  (s.rowAt offset).map (·.label)

/-- `get_data_num` -/
def getDataNum (s : BruteforceSearch V) : Nat := s.rows.length

section Search

variable {D : Type} [LinearOrder D]

/-- One candidate and the queue of the best `k`, worst first. -/
def offer (k : Nat) (pq : List (D ×ₗ Nat)) (score : D) (label : Nat) : List (D ×ₗ Nat) :=
  if pq.length < k then pq.orderedInsert (· ≤ ·) (toLex (score, label))
  else
    match pq with
    | [] => []
    | worst :: rest =>
        if (ofLex worst).1 < score then rest.orderedInsert (· ≤ ·) (toLex (score, label))
        else pq

/-- The rows that are scored: all, or those at the offsets of the bitmap. -/
def candidates (s : BruteforceSearch V) : BitmapPtr → List (VectorRow V)
  | none => s.rows
  | some b => (b.elems.sort (· ≤ ·)).filterMap s.rowAt

/-- `search_knn`: labels and scores, best first. -/
def searchKnn (s : BruteforceSearch V) (score : VectorRow V → D) (k : Nat) (filter : BitmapPtr) :
    List (Nat × D) :=
  let pq := (s.candidates filter).foldl (fun pq r => offer k pq (score r) r.label) []
  (pq.map fun e => ((ofLex e).2, (ofLex e).1)).reverse

end Search

/-! ## The two maps -/

/-- The maps file exactly the rows of the buffer, and the counter is ahead of
every offset. -/
structure Consistent (s : BruteforceSearch V) : Prop where
  label : Files s.labelMap s.rows (·.label)
  offset : Files s.offsetMap s.rows (·.offset)
  fresh : ∀ r ∈ s.rows, r.offset < s.nextLogicalOffset

/-- The offset of a label that is there -/
def offsetOf (s : BruteforceSearch V) (label : Nat) : Option Nat := (s.rowOf label).map (·.offset)

/-- The vector of a label that is there -/
def vectorOf (s : BruteforceSearch V) (label : Nat) : Option V := (s.rowOf label).map (·.vector)

variable {s : BruteforceSearch V}

theorem consistent_empty : (empty : BruteforceSearch V).Consistent :=
  ⟨Files.nil, Files.nil, fun _ h => nomatch h⟩

namespace Consistent

theorem offsetOf_eq_some (h : s.Consistent) {label o : Nat} :
    s.offsetOf label = some o ↔ ∃ r ∈ s.rows, r.label = label ∧ r.offset = o := by
  simp only [offsetOf, rowOf, Option.map_eq_some_iff, h.label.find_eq_some, and_assoc]

theorem vectorOf_eq_some (h : s.Consistent) {label : Nat} {v : V} :
    s.vectorOf label = some v ↔ ∃ r ∈ s.rows, r.label = label ∧ r.vector = v := by
  simp only [vectorOf, rowOf, Option.map_eq_some_iff, h.label.find_eq_some, and_assoc]

/-- Labels and offsets belong together. -/
theorem getLabelByOffset_eq_some (h : s.Consistent) {label o : Nat} :
    s.getLabelByOffset o = some label ↔ s.offsetOf label = some o := by
  simp only [getLabelByOffset, rowAt, Option.map_eq_some_iff, h.offset.find_eq_some,
    h.offsetOf_eq_some]
  constructor
  · rintro ⟨r, ⟨hr, ho⟩, hl⟩
    exact ⟨r, hr, hl, ho⟩
  · rintro ⟨r, hr, hl, ho⟩
    exact ⟨r, ⟨hr, ho⟩, hl⟩

theorem offsetOf_lt (h : s.Consistent) {label o : Nat} (ho : s.offsetOf label = some o) :
    o < s.nextLogicalOffset := by
  obtain ⟨r, hr, -, rfl⟩ := h.offsetOf_eq_some.mp ho
  exact h.fresh r hr

theorem offsetOf_inj (h : s.Consistent) {label label' o : Nat}
    (ho : s.offsetOf label = some o) (ho' : s.offsetOf label' = some o) : label = label' :=
  Option.some.inj ((h.getLabelByOffset_eq_some.mpr ho).symm.trans
    (h.getLabelByOffset_eq_some.mpr ho'))

theorem lookup_eq_none (h : s.Consistent) {label : Nat} :
    s.labelMap.lookup label = none ↔ s.offsetOf label = none := by
  rw [h.label.lookup_eq_none, Option.eq_none_iff_forall_ne_some]
  simp only [ne_eq, h.offsetOf_eq_some]
  constructor
  · rintro hno o ⟨r, hr, hl, -⟩
    exact hno r hr hl
  · exact fun hno r hr hl => hno r.offset ⟨r, hr, hl, rfl⟩

/-- The row of a known label gets the new vector; the others stay. -/
theorem mem_addPoint_known (h : s.Consistent) {label o : Nat} (hl : s.offsetOf label = some o)
    (vector : V) {r : VectorRow V} :
    r ∈ (s.addPoint label vector).rows ↔
      r = ⟨vector, label, o⟩ ∨ r ∈ s.rows ∧ r.label ≠ label := by
  obtain ⟨i, hi⟩ : ∃ i, s.labelMap.lookup label = some i :=
    Option.ne_none_iff_exists'.mp fun hno => by
      rw [h.lookup_eq_none.mp hno] at hl
      cases hl
  obtain ⟨row, hrow, hlabel⟩ := (h.label label i).mp hi
  have hoff : row.offset = o := by
    obtain ⟨row', hrow', hl', rfl⟩ := h.offsetOf_eq_some.mp hl
    rw [h.label.key_inj (List.mem_of_getElem? hrow) hrow' (hlabel.trans hl'.symm)]
  simp only [addPoint, hi, List.mem_iff_getElem?, List.getElem?_modify, Option.map_eq_map,
    Option.map_eq_some_iff]
  constructor
  · rintro ⟨j, r', hr', rfl⟩
    split
    · next hij =>
        subst hij
        cases hrow.symm.trans hr'
        exact .inl (by rw [← hoff])
    · next hij =>
        refine .inr ⟨⟨j, hr'⟩, fun he => hij ?_⟩
        exact Option.some.inj (hi.symm.trans ((h.label label j).mpr ⟨r', hr', he⟩))
  · rintro (rfl | ⟨⟨j, hj⟩, hne⟩)
    · exact ⟨i, row, hrow, by rw [if_pos rfl, hoff]⟩
    · refine ⟨j, r, hj, if_neg ?_⟩
      rintro rfl
      cases hrow.symm.trans hj
      exact hne hlabel

theorem addPoint_known_consistent (h : s.Consistent) {label o : Nat}
    (hl : s.offsetOf label = some o) (vector : V) : (s.addPoint label vector).Consistent := by
  obtain ⟨i, hi⟩ : ∃ i, s.labelMap.lookup label = some i :=
    Option.ne_none_iff_exists'.mp fun hno => by
      rw [h.lookup_eq_none.mp hno] at hl
      cases hl
  obtain ⟨row, hrow, hlabel⟩ := (h.label label i).mp hi
  have heq : s.addPoint label vector =
      { s with rows := s.rows.modify i fun r => { r with vector, label } } := by
    simp only [addPoint, hi]
  have hfresh : ∀ r ∈ (s.addPoint label vector).rows, r.offset < s.nextLogicalOffset := by
    intro r hr
    rcases (h.mem_addPoint_known hl vector).mp hr with rfl | ⟨hr, -⟩
    · exact h.offsetOf_lt hl
    · exact h.fresh r hr
  rw [heq] at hfresh ⊢
  refine ⟨h.label.modify ?_, h.offset.modify fun _ _ => rfl, hfresh⟩
  intro r hr
  cases hrow.symm.trans hr
  exact hlabel.symm

/-- A new vector for a known label leaves the offsets alone. -/
theorem addPoint_known (h : s.Consistent) {label o : Nat} (hl : s.offsetOf label = some o)
    (vector : V) :
    (s.addPoint label vector).Consistent ∧
      (∀ label', (s.addPoint label vector).offsetOf label' = s.offsetOf label') ∧
      (s.addPoint label vector).nextLogicalOffset = s.nextLogicalOffset := by
  have hcons := h.addPoint_known_consistent hl vector
  refine ⟨hcons, fun label' => Option.ext fun o' => ?_, ?_⟩
  · rw [hcons.offsetOf_eq_some]
    simp only [h.mem_addPoint_known hl]
    by_cases hl' : label' = label
    · subst hl'
      rw [hl]
      constructor
      · rintro ⟨r, rfl | ⟨-, hne⟩, hr, ho⟩
        · exact congrArg some ho
        · exact absurd hr hne
      · intro ho
        exact ⟨⟨vector, label', o⟩, .inl rfl, rfl, Option.some.inj ho⟩
    · rw [h.offsetOf_eq_some]
      constructor
      · rintro ⟨r, rfl | ⟨hr, -⟩, hrl, ho⟩
        · exact absurd hrl.symm hl'
        · exact ⟨r, hr, hrl, ho⟩
      · rintro ⟨r, hr, hrl, ho⟩
        exact ⟨r, .inr ⟨hr, hrl ▸ hl'⟩, hrl, ho⟩
  · unfold addPoint
    split
    · rfl
    · next hno =>
        rw [h.lookup_eq_none.mp hno] at hl
        cases hl

theorem addPoint_new_eq (h : s.Consistent) {label : Nat} (hl : s.offsetOf label = none)
    (hnext : s.nextLogicalOffset < 2 ^ 32) (vector : V) :
    s.addPoint label vector =
      { rows := s.rows ++ [⟨vector, label, s.nextLogicalOffset⟩]
        labelMap := s.labelMap.insert label s.rows.length
        offsetMap := s.offsetMap.insert s.nextLogicalOffset s.rows.length
        nextLogicalOffset := s.nextLogicalOffset + 1 } := by
  simp only [addPoint, h.lookup_eq_none.mpr hl, Nat.mod_eq_of_lt hnext]

/-- A new label gets the next offset. -/
theorem addPoint_new (h : s.Consistent) {label : Nat} (hl : s.offsetOf label = none)
    (hnext : s.nextLogicalOffset < 2 ^ 32) (vector : V) :
    (s.addPoint label vector).Consistent ∧
      (∀ label', (s.addPoint label vector).offsetOf label' =
        if label' = label then some s.nextLogicalOffset else s.offsetOf label') ∧
      (s.addPoint label vector).nextLogicalOffset = s.nextLogicalOffset + 1 := by
  have heq := h.addPoint_new_eq hl hnext vector
  have hcons : (s.addPoint label vector).Consistent := by
    rw [heq]
    have hfresh : s.offsetMap.lookup s.nextLogicalOffset = none :=
      h.offset.lookup_eq_none.mpr fun r hr => (h.fresh r hr).ne
    refine ⟨h.label.append (a := ⟨vector, label, s.nextLogicalOffset⟩) (h.lookup_eq_none.mpr hl),
      h.offset.append (a := ⟨vector, label, s.nextLogicalOffset⟩) hfresh, fun r hr => ?_⟩
    · rcases List.mem_append.mp hr with hr | hr
      · exact Nat.lt_succ_of_lt (h.fresh r hr)
      · cases List.mem_singleton.mp hr
        exact Nat.lt_succ_self _
  refine ⟨hcons, fun label' => Option.ext fun o => ?_, by rw [heq]⟩
  rw [hcons.offsetOf_eq_some, heq]
  simp only [List.mem_append, List.mem_singleton, or_and_right, exists_or, exists_eq_left]
  rw [← h.offsetOf_eq_some]
  split
  · next he => simp [he, hl]
  · next he => simp [Ne.symm he]

/-- The rows after a removal, and that the maps still file them. -/
theorem removePoint_rows (h : s.Consistent) (label : Nat) :
    (s.removePoint label).Consistent ∧
      (∀ r, r ∈ (s.removePoint label).rows ↔ r ∈ s.rows ∧ r.label ≠ label) ∧
      (s.removePoint label).nextLogicalOffset = s.nextLogicalOffset := by
  cases hi : s.labelMap.lookup label with
  | none =>
      have heq : s.removePoint label = s := by simp only [removePoint, hi]
      rw [heq]
      exact ⟨h, fun r => (and_iff_left_of_imp (h.label.lookup_eq_none.mp hi r)).symm, rfl⟩
  | some i =>
      obtain ⟨removed, hr, (hlabel : removed.label = label)⟩ := (h.label label i).mp hi
      obtain ⟨last, hlast⟩ : ∃ last, s.rows.getLast? = some last :=
        Option.ne_none_iff_exists'.mp fun hno => by
          rw [List.getLast?_eq_none_iff.mp hno] at hr
          cases hr
      have heq : s.removePoint label = { s with
          rows := swapRemove s.rows i last
          labelMap := swapRemoveKey s.labelMap s.rows (·.label) i removed last
          offsetMap := swapRemoveKey s.offsetMap s.rows (·.offset) i removed last } := by
        simp only [removePoint, hi, hr, hlast]
      have hmem : ∀ r, r ∈ swapRemove s.rows i last ↔ r ∈ s.rows ∧ r.label ≠ label := fun r => by
        rw [h.label.mem_swapRemove hr hlast, hlabel]
      rw [heq]
      exact ⟨⟨h.label.swapRemove_files hr hlast, h.offset.swapRemove_files hr hlast,
        fun r hr => h.fresh r ((hmem r).mp hr).1⟩, hmem, rfl⟩

theorem removePoint_ok (h : s.Consistent) (label : Nat) :
    (s.removePoint label).Consistent ∧
      (∀ label', (s.removePoint label).offsetOf label' =
        if label' = label then none else s.offsetOf label') ∧
      (s.removePoint label).nextLogicalOffset = s.nextLogicalOffset := by
  obtain ⟨hcons, hmem, hnext⟩ := h.removePoint_rows label
  refine ⟨hcons, fun label' => Option.ext fun o => ?_, hnext⟩
  rw [hcons.offsetOf_eq_some]
  simp only [hmem]
  split
  · next he =>
      refine iff_of_false ?_ nofun
      rintro ⟨r, ⟨-, hne⟩, hl, -⟩
      exact hne (hl.trans he)
  · next he =>
      rw [h.offsetOf_eq_some]
      constructor
      · rintro ⟨r, ⟨hr, -⟩, hl⟩
        exact ⟨r, hr, hl⟩
      · rintro ⟨r, hr, hl, ho⟩
        exact ⟨r, ⟨hr, fun e => he (hl.symm.trans e)⟩, hl, ho⟩

/-- A point has the vector it was added with last. -/
theorem vectorOf_addPoint (h : s.Consistent) (hnext : s.nextLogicalOffset < 2 ^ 32)
    (label : Nat) (vector : V) (label' : Nat) :
    (s.addPoint label vector).vectorOf label' =
      if label' = label then some vector else s.vectorOf label' := by
  cases hl : s.offsetOf label with
  | some o =>
      refine Option.ext fun v => ?_
      rw [(h.addPoint_known_consistent hl vector).vectorOf_eq_some]
      simp only [h.mem_addPoint_known hl]
      split
      · next he =>
          subst he
          constructor
          · rintro ⟨r, rfl | ⟨-, hne⟩, hr, hv⟩
            · exact congrArg some hv
            · exact absurd hr hne
          · intro hv
            exact ⟨⟨vector, label', o⟩, .inl rfl, rfl, Option.some.inj hv⟩
      · next he =>
          rw [h.vectorOf_eq_some]
          constructor
          · rintro ⟨r, rfl | ⟨hr, -⟩, hrl, hv⟩
            · exact absurd hrl.symm he
            · exact ⟨r, hr, hrl, hv⟩
          · rintro ⟨r, hr, hrl, hv⟩
            exact ⟨r, .inr ⟨hr, hrl ▸ he⟩, hrl, hv⟩
  | none =>
      have hno : s.vectorOf label = none := by
        rw [vectorOf, Option.map_eq_none_iff.mp hl]
        rfl
      refine Option.ext fun v => ?_
      rw [(h.addPoint_new hl hnext vector).1.vectorOf_eq_some, h.addPoint_new_eq hl hnext]
      simp only [List.mem_append, List.mem_singleton, or_and_right, exists_or, exists_eq_left]
      rw [← h.vectorOf_eq_some]
      split
      · next he => simp [he, hno]
      · next he => simp [Ne.symm he]

theorem vectorOf_removePoint (h : s.Consistent) (label label' : Nat) :
    (s.removePoint label).vectorOf label' =
      if label' = label then none else s.vectorOf label' := by
  obtain ⟨hcons, hmem, -⟩ := h.removePoint_rows label
  refine Option.ext fun v => ?_
  rw [hcons.vectorOf_eq_some]
  simp only [hmem]
  split
  · next he =>
      refine iff_of_false ?_ nofun
      rintro ⟨r, ⟨-, hne⟩, hl, -⟩
      exact hne (hl.trans he)
  · next he =>
      rw [h.vectorOf_eq_some]
      constructor
      · rintro ⟨r, ⟨hr, -⟩, hl⟩
        exact ⟨r, hr, hl⟩
      · rintro ⟨r, hr, hl, hv⟩
        exact ⟨r, ⟨hr, fun e => he (hl.symm.trans e)⟩, hl, hv⟩

end Consistent

end BruteforceSearch

end OpenViking.Index
