/-
# `OpenViking.Index.Counting` — counting agrees with searching

A count under a filter is the number of members of the filter's bitmap; a search leaves
out the members that have no row.  The two differ by the members that are dead: offsets
of deleted records.

A dead offset can be in the bitmap for two reasons.  The record was deleted without the
fields it was filed under, so that traces of it stayed; `Covers` excludes this.  Or the
filter accepts a record without any fields, because it is a complement or the root of a
path field, which range over all offsets ever used; `rejectsBlank` excludes this by the
shape of the filter.  Under these conditions the count is right in every state that calls
of `add_data` and `delete_data` lead to (`counting_along`).
-/
import OpenViking.Index.Traces
import OpenViking.Index.SetSemantics
import OpenViking.Index.Knn
import OpenViking.Lib.History

namespace OpenViking.Index

open OpenViking.Lib

variable {D V Q : Type} [LinearOrder D]

/-! ## A record without fields -/

/-- Nothing is filed at the offset, and no label leads to it. -/
structure FieldBitmapGroupSet.Blank (G : FieldBitmapGroupSet D) (o : Nat) : Prop where
  groups : ∀ f g, G.findFieldGroup f = some g → ¬ g.Occupies o
  converter : ∀ offsetOf, G.converter = some offsetOf → ∀ label, offsetOf label ≠ some o

section Rejects

variable (G : FieldBitmapGroupSet D) (inFull : Bool)

mutual

/-- The shape of the filter keeps out a record without fields; `inFull` says whether
complements range over it. -/
def rejectsBlank : FilterOp D → Bool
  | .must field conds depth =>
      !(inFull && G.isPathFieldName field && decide (NamesRoot conds depth))
  | .mustNot field conds depth =>
      !inFull || G.isPathFieldName field && decide (NamesRoot conds depth)
  | .and true conds => allReject conds
  | .and false [] => true
  | .and false (first :: rest) => rejectsBlank first || someRejects rest
  | .or conds => allReject conds
  | _ => true

def allReject : List (FilterOp D) → Bool
  | [] => true
  | cond :: conds => rejectsBlank cond && allReject conds

/-- A later condition of an `and`; a `must_not` there only takes out its keys. -/
def someRejects : List (FilterOp D) → Bool
  | [] => false
  | cond :: conds => !cond.isMustNot && rejectsBlank cond || someRejects conds

end

end Rejects

section Blank

variable [DoubleArith D] {regex : Str → Option (Str → Bool)} {G : FieldBitmapGroupSet D} {o : Nat}

omit [DoubleArith D] in
theorem FieldBitmapGroupSet.Blank.notMem_keySet (h : G.Blank o) (field : Str)
    (wanted : Str → Prop) : o ∉ G.keySet field wanted := by
  rintro ⟨key, b, -, hb, ho⟩
  unfold FieldBitmapGroupSet.getBitmap at hb
  split at hb
  · next g hg =>
      refine h.groups field g hg (.inl ⟨key, ?_⟩)
      rw [FieldBitmapGroup.bits, hb]
      exact ho
  · cases hb

omit [DoubleArith D] in
/-- A record with a number occupies the field. -/
theorem FieldBitmapGroupSet.Blank.not_hasValue (h : G.Blank o) (hkept : G.Kept) (field : Str)
    (v : D) : ¬ HasValue G field v o := by
  rintro ⟨g, m, hg, hm, hmem⟩
  obtain ⟨cur, hcur⟩ := hkept.ranged field g hg m hm
  refine h.groups field g hg (.inr ⟨m, hm, ?_⟩)
  rw [hcur.value, (hcur.mem v o).mp hmem]
  rfl

/-! ### Evaluation -/

omit [DoubleArith D] in
theorem notMem_accumulate_none {op : FilterOp D} {self : BitmapPtr} {c : Connective}
    (h : o ∉ self.elems) : o ∉ (accumulate G op self none c).elems := by
  unfold accumulate
  split
  · exact Finset.notMem_empty o
  · exact h

omit [DoubleArith D] in
theorem notMem_accumulate_or {op : FilterOp D} {self : BitmapPtr} {p : Bitmap}
    (hp : o ∉ p.elems) (h : o ∉ self.elems) : o ∉ (accumulate G op self (some p) .or).elems := by
  unfold accumulate
  split
  · exact Finset.notMem_empty o
  · show o ∉ (p.unionPtr self).elems
    rw [Bitmap.elems_unionPtr, Finset.mem_union]
    rintro (ho | ho)
    · exact hp ho
    · exact h ho

omit [DoubleArith D] in
/-- An `and` only narrows. -/
theorem mem_of_mem_accumulate_and {op : FilterOp D} {self : BitmapPtr} {p : Bitmap}
    (h : o ∈ (accumulate G op self (some p) .and).elems) :
    o ∈ p.elems ∧ (op.isMustNot = false → o ∈ self.elems) := by
  have hexclude : ∀ q : BitmapPtr, o ∈ (p.excludePtr q).elems → o ∈ p.elems := by
    intro q hq
    rw [Bitmap.elems_excludePtr] at hq
    exact (Finset.mem_sdiff.mp hq).1
  unfold accumulate at h
  split at h
  · cases h
  · dsimp only at h
    split at h
    · exact ⟨h, fun hno => by cases hno⟩
    · exact ⟨hexclude _ h, fun hno => by cases hno⟩
    · exact ⟨hexclude _ h, fun hno => by cases hno⟩
    · split at h
      · cases h
      · next b =>
          rw [BitmapPtr.elems_some, Bitmap.elems_intersect, Finset.mem_inter] at h
          exact ⟨h.1, fun _ => h.2⟩

theorem mem_of_mem_calcConds_and {cs : List (FilterOp D)} {p : Bitmap}
    (h : o ∈ (calcConds regex G .and cs (some p)).elems) :
    o ∈ p.elems ∧ ∀ c ∈ cs, c.isMustNot = false → o ∈ (calcSelfBitmap regex G c).elems := by
  induction cs generalizing p with
  | nil => exact ⟨h, fun _ hc => by cases hc⟩
  | cons c cs ih =>
      rw [calcConds_and_cons] at h
      cases hacc : accumulate G c (calcSelfBitmap regex G c) (some p) .and with
      | none =>
          rw [hacc] at h
          cases h
      | some q =>
          rw [hacc] at h
          obtain ⟨hq, hrest⟩ := ih h
          have hstep : o ∈ (accumulate G c (calcSelfBitmap regex G c) (some p) .and).elems := by
            rw [hacc]
            exact hq
          obtain ⟨hp, hself⟩ := mem_of_mem_accumulate_and hstep
          refine ⟨hp, fun c' hc' => ?_⟩
          rcases List.mem_cons.mp hc' with rfl | hc'
          · exact hself
          · exact hrest c' hc'

theorem notMem_calcConds_or {cs : List (FilterOp D)}
    (hcs : ∀ c ∈ cs, o ∉ (calcSelfBitmap regex G c).elems) {pres : BitmapPtr}
    (hpres : o ∉ pres.elems) : o ∉ (calcConds regex G .or cs pres).elems := by
  induction cs generalizing pres with
  | nil => exact hpres
  | cons c cs ih =>
      rw [calcConds_or_cons]
      refine ih (fun c hc => hcs c (List.mem_cons_of_mem _ hc)) ?_
      have hself := hcs c List.mem_cons_self
      cases pres with
      | none => exact notMem_accumulate_none hself
      | some p => exact notMem_accumulate_or hpres hself

theorem notMem_calcIgnoringEmpty {cs : List (FilterOp D)}
    (hcs : ∀ c ∈ cs, o ∉ (calcSelfBitmap regex G c).elems) {pres : BitmapPtr}
    (hpres : o ∉ pres.elems) : o ∉ (calcIgnoringEmpty regex G cs pres).elems := by
  induction cs generalizing pres with
  | nil =>
      rw [calcIgnoringEmpty]
      exact hpres
  | cons c cs ih =>
      have hrest : ∀ c ∈ cs, o ∉ (calcSelfBitmap regex G c).elems :=
        fun c hc => hcs c (List.mem_cons_of_mem _ hc)
      have hself : o ∉ (accumulate G c (calcSelfBitmap regex G c) none .and).elems :=
        notMem_accumulate_none (hcs c List.mem_cons_self)
      cases hacc : accumulate G c (calcSelfBitmap regex G c) none .and with
      | none =>
          simp only [calcIgnoringEmpty, hacc]
          exact ih hrest hpres
      | some found =>
          cases pres with
          | none =>
              simp only [calcIgnoringEmpty, hacc]
              rw [hacc] at hself
              exact ih hrest hself
          | some p =>
              simp only [calcIgnoringEmpty, hacc]
              refine ih hrest ?_
              rw [BitmapPtr.elems_some, Bitmap.elems_intersect]
              exact fun ho => hpres (Finset.mem_inter.mp ho).1

omit [DoubleArith D] in
theorem allReject_iff {inFull : Bool} {conds : List (FilterOp D)} :
    allReject G inFull conds = true ↔ ∀ c ∈ conds, rejectsBlank G inFull c = true := by
  induction conds with
  | nil => simp [allReject]
  | cons c cs ih => rw [allReject, Bool.and_eq_true, ih, List.forall_mem_cons]

omit [DoubleArith D] in
theorem someRejects_iff {inFull : Bool} {conds : List (FilterOp D)} :
    someRejects G inFull conds = true ↔
      ∃ c ∈ conds, c.isMustNot = false ∧ rejectsBlank G inFull c = true := by
  induction conds with
  | nil => simp [someRejects]
  | cons c cs ih =>
      rw [someRejects, Bool.or_eq_true, ih, List.exists_mem_cons_iff, Bool.and_eq_true,
        Bool.not_eq_true']

/-- `must_not`: the complement of what `must` selects -/
theorem mem_calcSelf_mustNot {field : Str} {conds : List Str} {depth : Int}
    (h : o ∈ (calcSelfBitmap regex G (.mustNot field conds depth)).elems) :
    o < G.elementSize ∧ ¬ (G.isPathFieldName field = true ∧ NamesRoot conds depth) := by
  simp only [calcSelfBitmap] at h
  split at h
  · next hpath =>
      rw [FieldBitmapGroupSet.makePathFieldExcludeCopy, BitmapPtr.elems_some,
        Bitmap.elems_excludePtr, FieldBitmapGroupSet.elems_makeFullTemp, Finset.mem_sdiff,
        Finset.mem_range, mem_makePathFieldCopy hpath] at h
      refine ⟨h.1, fun hroot => h.2 ?_⟩
      rw [if_pos hroot.2]
      exact h.1
  · next hpath =>
      rw [FieldBitmapGroupSet.mem_makeFieldExcludeCopy] at h
      exact ⟨h.1, fun hroot => hpath hroot.1⟩

/-- A filter whose shape keeps out a record without fields keeps it out. -/
theorem FieldBitmapGroupSet.Blank.notMem_calcSelfBitmap (h : G.Blank o) (hkept : G.Kept)
    {inFull : Bool} (hfull : o < G.elementSize → inFull = true) (op : FilterOp D) :
    rejectsBlank G inFull op = true → o ∉ (calcSelfBitmap regex G op).elems := by
  refine FilterOp.induct
    (P := fun op => rejectsBlank G inFull op = true → o ∉ (calcSelfBitmap regex G op).elems)
    ?_ op
  intro op ih hrej ho
  have hnull : o ∉ BitmapPtr.elems none := Finset.notMem_empty o
  cases op with
  | and ig cs =>
      cases ig with
      | true =>
          rw [rejectsBlank, allReject_iff] at hrej
          rw [calcSelfBitmap] at ho
          exact notMem_calcIgnoringEmpty (fun c hc => ih c hc (hrej c hc)) hnull ho
      | false =>
          cases cs with
          | nil =>
              rw [calcSelfBitmap, calcConds] at ho
              cases ho
          | cons first rest =>
              rw [rejectsBlank, Bool.or_eq_true, someRejects_iff] at hrej
              rw [calcSelfBitmap, calcConds_and_cons] at ho
              cases hacc : accumulate G first (calcSelfBitmap regex G first) none .and with
              | none =>
                  rw [hacc] at ho
                  cases ho
              | some p =>
                  rw [hacc] at ho
                  obtain ⟨hp, hrest⟩ := mem_of_mem_calcConds_and ho
                  rcases hrej with hrej | ⟨c, hc, hnot, hrej⟩
                  · have hno :
                        o ∉ (accumulate G first (calcSelfBitmap regex G first) none .and).elems :=
                      notMem_accumulate_none (ih first List.mem_cons_self hrej)
                    rw [hacc] at hno
                    exact hno hp
                  · exact ih c (List.mem_cons_of_mem _ hc) hrej (hrest c hc hnot)
  | or cs =>
      rw [rejectsBlank, allReject_iff] at hrej
      rw [calcSelfBitmap] at ho
      exact notMem_calcConds_or (fun c hc => ih c hc (hrej c hc)) hnull ho
  | must field conds depth =>
      rw [calcSelfBitmap] at ho
      split at ho
      · next hpath =>
          rw [mem_makePathFieldCopy hpath] at ho
          split at ho
          · next hroot =>
              rw [rejectsBlank, hfull ho, hpath, decide_eq_true hroot] at hrej
              cases hrej
          · exact h.notMem_keySet field _ ho
      · exact h.notMem_keySet field _ (FieldBitmapGroupSet.mem_makeFieldCopy.mp ho)
  | mustNot field conds depth =>
      obtain ⟨hlt, hno⟩ := mem_calcSelf_mustNot ho
      rw [rejectsBlank, hfull hlt, Bool.not_true, Bool.false_or, Bool.and_eq_true,
        decide_eq_true_eq] at hrej
      exact hno hrej
  | range rangeOut field bounds =>
      rw [calcSelfBitmap] at ho
      obtain ⟨v, hv, -⟩ := mem_makeRangeCopy.mp ho
      exact h.not_hasValue hkept field v hv
  | range2d rangeOut field₀ field₁ x y radius =>
      rw [calcSelfBitmap] at ho
      obtain ⟨⟨v, hv⟩, -⟩ := hasBoth_of_nearIn (mem_makeRange2dCopy.mp ho).2
      exact h.not_hasValue hkept field₀ v hv
  | labelIn labels =>
      rw [calcSelfBitmap] at ho
      obtain ⟨offsetOf, hconv, label, -, hlabel⟩ := mem_labelInBitmap.mp ho
      exact h.converter offsetOf hconv label hlabel
  | startsWith field value =>
      rw [calcSelfBitmap] at ho
      exact h.notMem_keySet field _ (mem_makeFieldPrefixCopy.mp ho)
  | contains field substring =>
      rw [calcSelfBitmap] at ho
      exact h.notMem_keySet field _ (mem_makeFieldContainsCopy.mp ho)
  | regex field pattern =>
      rw [calcSelfBitmap] at ho
      obtain ⟨search, -, hin⟩ := mem_makeFieldRegexCopy.mp ho
      exact h.notMem_keySet field _ hin

omit [DoubleArith D] in
/-- No filter reaches beyond the size of the index. -/
theorem rejectsBlank_false (G : FieldBitmapGroupSet D) (op : FilterOp D) :
    rejectsBlank G false op = true := by
  refine FilterOp.induct (P := fun op => rejectsBlank G false op = true) ?_ op
  intro op ih
  cases op with
  | and ig cs =>
      cases ig with
      | true => exact allReject_iff.mpr ih
      | false =>
          cases cs with
          | nil => rfl
          | cons first rest =>
              rw [rejectsBlank, ih first List.mem_cons_self]
              rfl
  | or cs => exact allReject_iff.mpr ih
  | must field conds depth => rfl
  | mustNot field conds depth => rfl
  | _ => rfl

theorem FieldBitmapGroupSet.Blank.notMem_calcBitmap (h : G.Blank o) (hkept : G.Kept)
    {op : FilterOp D} (hop : G.elementSize ≤ o ∨ rejectsBlank G true op = true) :
    o ∉ (calcBitmap regex G op).elems := by
  refine notMem_accumulate_none ?_
  rcases hop with hle | hrej
  · exact h.notMem_calcSelfBitmap hkept (fun hlt => absurd hlt (Nat.not_lt.mpr hle)) op
      (rejectsBlank_false G op)
  · exact h.notMem_calcSelfBitmap hkept (fun _ => rfl) op hrej

end Blank

/-! ## Histories -/

namespace IndexManager

/-- A record is at the offset. -/
def Live (M : IndexManager D V) (o : Nat) : Prop := ∃ label, M.vectors.offsetOf label = some o

/-- The traces in the scalar index are traces of records that are there. -/
structure Traceless (M : IndexManager D V) : Prop where
  vectors : M.vectors.Consistent
  kept : M.scalar.Kept
  live : ∀ f g o, M.scalar.findFieldGroup f = some g → g.Occupies o → M.Live o
  converter : ∀ offsetOf, M.scalar.converter = some offsetOf →
    ∀ label o, offsetOf label = some o → M.Live o

variable {M : IndexManager D V}

theorem Traceless.blank (h : M.Traceless) {o : Nat} (ho : ¬ M.Live o) : M.scalar.Blank o :=
  ⟨fun f g hg hocc => ho (h.live f g o hg hocc),
    fun offsetOf hconv label hlabel => ho (h.converter offsetOf hconv label o hlabel)⟩

theorem offsetOf_of_getOffsetByLabel {s : BruteforceSearch V} {label o : Nat}
    (h : s.getOffsetByLabel label = some o) : s.offsetOf label = some o := by
  unfold BruteforceSearch.getOffsetByLabel at h
  split at h
  · next r hr =>
      split at h
      · cases h
        rw [BruteforceSearch.offsetOf, hr]
        rfl
      · cases h
  · cases h

theorem traceless_new (schema : AList (fun _ : Str => FieldType)) :
    (IndexManager.new V schema : IndexManager D V).Traceless := by
  have hgroup : ∀ f g, (IndexManager.new V schema : IndexManager D V).scalar.findFieldGroup f =
      some g → ∃ ty : FieldType, g = ty.newGroup := by
    intro f g hg
    obtain ⟨e, -, he⟩ := List.mem_map.mp (List.of_mem_dlookup hg)
    cases he
    exact ⟨e.2, rfl⟩
  have hempty : ∀ (ty : FieldType) (o : Nat), ¬ (ty.newGroup : FieldBitmapGroup D).Occupies o := by
    rintro ty o (⟨key, hkey⟩ | ⟨m, hm, ho⟩)
    · cases hkey
    · unfold FieldType.newGroup at hm
      dsimp only at hm
      split at hm
      · cases hm
        cases ho
      · cases hm
  refine ⟨BruteforceSearch.consistent_empty, ⟨?_, ?_, ?_⟩, ?_, ?_⟩
  · intro f g hg m hm
    obtain ⟨ty, rfl⟩ := hgroup f g hg
    unfold FieldType.newGroup at hm
    dsimp only at hm
    split at hm
    · cases hm
      exact ⟨_, RangedMap.agrees_empty⟩
    · cases hm
  · intro f g o hg ho
    obtain ⟨ty, rfl⟩ := hgroup f g hg
    exact absurd ho (hempty ty o)
  · intro f g hg
    obtain ⟨ty, rfl⟩ := hgroup f g hg
    exact le_rfl
  · intro f g o hg ho
    obtain ⟨ty, rfl⟩ := hgroup f g hg
    exact absurd ho (hempty ty o)
  · intro offsetOf hconv label o ho
    cases hconv
    exact ⟨label, offsetOf_of_getOffsetByLabel ho⟩

/-- Both indexes are replaced; the new converter asks the new vector index. -/
theorem Traceless.withIndexes {vectors : BruteforceSearch V} {scalar : FieldBitmapGroupSet D}
    (hvectors : vectors.Consistent) (hkept : scalar.Kept)
    (hlive : ∀ f g o, scalar.findFieldGroup f = some g → g.Occupies o →
      ∃ label, vectors.offsetOf label = some o) : (M.withIndexes vectors scalar).Traceless := by
  refine ⟨hvectors, ⟨hkept.ranged, hkept.within, hkept.size⟩, hlive, ?_⟩
  intro offsetOf hconv label o ho
  cases hconv
  exact ⟨label, offsetOf_of_getOffsetByLabel ho⟩

/-- There is a row and an offset for the record. -/
def RoomFor (M : IndexManager D V) (req : AddDataRequest D V) : Prop :=
  M.vectors.labelMap.lookup req.label = none →
    M.vectors.rows.length + 1 < 2 ^ 31 ∧ M.vectors.nextLogicalOffset < 2 ^ 32

/-- An addition keeps every record at its offset. -/
theorem addPoint_live (h : M.Traceless) {label : Nat} (vector : V)
    (hroom : M.vectors.labelMap.lookup label = none → M.vectors.nextLogicalOffset < 2 ^ 32) :
    (M.vectors.addPoint label vector).Consistent ∧
      ∀ o, M.Live o → ∃ l, (M.vectors.addPoint label vector).offsetOf l = some o := by
  cases hl : M.vectors.offsetOf label with
  | some o =>
      obtain ⟨hcons, hoff, -⟩ := h.vectors.addPoint_known hl vector
      refine ⟨hcons, ?_⟩
      rintro o' ⟨l, hlo⟩
      exact ⟨l, (hoff l).trans hlo⟩
  | none =>
      obtain ⟨hcons, hoff, -⟩ :=
        h.vectors.addPoint_new hl (hroom (h.vectors.lookup_eq_none.mpr hl)) vector
      refine ⟨hcons, ?_⟩
      rintro o' ⟨l, hlo⟩
      refine ⟨l, ?_⟩
      rw [hoff l, if_neg, hlo]
      rintro rfl
      rw [hl] at hlo
      cases hlo

theorem Traceless.addOne [DoubleArith D] (h : M.Traceless) {req : AddDataRequest D V}
    (hroom : M.RoomFor req) : (M.addOne req).2.Traceless := by
  obtain ⟨hcons, hlive⟩ := addPoint_live h req.vector fun hnew => (hroom hnew).2
  unfold IndexManager.addOne
  dsimp only
  split
  · refine Traceless.withIndexes hcons h.kept ?_
    intro f g o hg ho
    exact hlive o (h.live f g o hg ho)
  · next offset hoffset =>
      refine Traceless.withIndexes hcons (h.kept.addRowData offset _ _) ?_
      intro f g' o hg' ho
      obtain ⟨g, hg, htouches, -⟩ := FieldBitmapGroupSet.touches_addRowData hg'
      rcases htouches.occupies o ho with ho | ⟨rfl, -⟩
      · exact hlive o (h.live f g o hg ho)
      · exact ⟨req.label, offsetOf_of_getOffsetByLabel hoffset⟩

/-- The request has the fields the record is filed under. -/
def TakesOut [DoubleArith D] (M : IndexManager D V) (req : DeleteDataRequest D) : Prop :=
  ∀ o, M.vectors.getOffsetByLabel req.label = some o →
    M.scalar.Covers o (FieldsDict.parseFromJson req.oldFields)

theorem Traceless.deleteOne [DoubleArith D] (h : M.Traceless) {req : DeleteDataRequest D}
    (htakes : M.TakesOut req) : (M.deleteOne req).2.Traceless := by
  unfold IndexManager.deleteOne
  split
  · exact h
  · next offset hoffset =>
      have hlabel := offsetOf_of_getOffsetByLabel hoffset
      obtain ⟨hcons, hoff, -⟩ := h.vectors.removePoint_ok req.label
      refine Traceless.withIndexes hcons (h.kept.deleteRowData offset _) ?_
      intro f g' o hg' ho
      obtain ⟨g, hg, hshrinks⟩ := FieldBitmapGroupSet.shrinks_deleteRowData hg'
      obtain ⟨l, hl⟩ := h.live f g o hg (hshrinks.occupies o ho)
      refine ⟨l, ?_⟩
      rw [hoff l, if_neg, hl]
      rintro rfl
      cases hl.symm.trans hlabel
      exact FieldBitmapGroupSet.not_occupies_deleteRowData h.kept (htakes _ hoffset) hg' ho

/-! ### Whole calls -/

inductive DataCall (D V : Type) where
  | addData (reqs : List (AddDataRequest D V))
  | deleteData (reqs : List (DeleteDataRequest D))

variable [DoubleArith D]

def perform (M : IndexManager D V) : DataCall D V → IndexManager D V
  | .addData reqs => M.addData reqs
  | .deleteData reqs => M.deleteData reqs

/-- Every request of the call meets its condition when its turn comes. -/
def CarefulCall (M : IndexManager D V) : DataCall D V → Prop
  | .addData reqs => Guarded (fun M req => (addOne M req).2) RoomFor M reqs
  | .deleteData reqs => Guarded (fun M req => (deleteOne M req).2) TakesOut M reqs

omit [DoubleArith D] in
theorem Traceless.clearFilters (h : M.Traceless) : M.clearFilters.Traceless :=
  ⟨h.vectors, h.kept, h.live, h.converter⟩

omit [DoubleArith D] in
theorem Traceless.applyAll {R : Type} {one : IndexManager D V → R → Bool × IndexManager D V}
    {C : IndexManager D V → R → Prop}
    (hone : ∀ M req, M.Traceless → C M req → (one M req).2.Traceless) (h : M.Traceless)
    {reqs : List R} (hreqs : Guarded (fun M req => (one M req).2) C M reqs) :
    (M.applyAll one reqs).Traceless := by
  have hfold : ∀ (reqs : List R) (updated : Bool) (M : IndexManager D V), M.Traceless →
      Guarded (fun M req => (one M req).2) C M reqs →
        (reqs.foldl (fun st req => ((one st.2 req).1 || st.1, (one st.2 req).2))
          (updated, M)).2.Traceless := by
    intro reqs
    induction reqs with
    | nil => exact fun _ _ hM _ => hM
    | cons req reqs ih => exact fun _ M hM hg => ih _ _ (hone M req hM hg.1) hg.2
  have hend := hfold reqs false M h hreqs
  unfold IndexManager.applyAll
  dsimp only
  split
  · exact hend.clearFilters
  · exact hend

theorem Traceless.perform (h : M.Traceless) {call : DataCall D V} (hcareful : M.CarefulCall call) :
    (M.perform call).Traceless := by
  cases call with
  | addData reqs => exact h.applyAll (fun M req hM hroom => hM.addOne hroom) hcareful
  | deleteData reqs => exact h.applyAll (fun M req hM htakes => hM.deleteOne htakes) hcareful

/-! ## Count and search -/

variable (P : Platform D V Q)

/-- The total of a count and the labels of a search -/
def SameTotal : Except Failure (SearchResult D) → Except Failure (SearchResult D) → Prop
  | .ok counted, .ok found => counted.counts = CounterOp.totalCount found.labels.length
  | .error e, .error e' => e = e'
  | _, _ => False

/-- A count and a search under the same filter, or both without one -/
def CountsAgree (M : IndexManager D V) (filterOp : Option (FilterOp D)) : Prop :=
  ∀ (countDsl searchDsl : DslText D) (counter : CounterOp) (query : Q) (query' : Option Q)
    (topk topk' : Nat),
    parseDslQuery P countDsl = .ok ⟨filterOp, some (.count counter)⟩ → counter.fields = [] →
    parseDslQuery P searchDsl = .ok ⟨filterOp, none⟩ → M.vectors.getDataNum ≤ topk →
      SameTotal (M.search P ⟨query', topk', countDsl⟩) (M.search P ⟨some query, topk, searchDsl⟩)

/-- Every offset ever used has a record, or the filter keeps out records without fields. -/
def Answerable (M : IndexManager D V) : Option (FilterOp D) → Prop
  | none => True
  | some op => (∀ o < M.scalar.elementSize, M.Live o) ∨ rejectsBlank M.scalar true op = true

/-- The members of the bitmap all have a row. -/
theorem Traceless.live_of_mem (h : M.Traceless) {op : FilterOp D}
    (hop : M.Answerable (some op)) {o : Nat} (ho : o ∈ (calcBitmap P.regex M.scalar op).elems) :
    M.Live o := by
  by_contra hdead
  refine (h.blank hdead).notMem_calcBitmap h.kept ?_ ho
  rcases hop with hall | hrej
  · refine .inl ?_
    by_contra hlt
    exact hdead (hall o (Nat.lt_of_not_le hlt))
  · exact .inr hrej

omit [DoubleArith D] in
/-- As many rows as the bitmap has members -/
theorem Traceless.length_matching (h : M.Traceless) {b : Bitmap}
    (hb : ∀ o ∈ b.elems, M.Live o) : (M.vectors.matching (some b)).length = b.elems.card := by
  have hnodup : ((M.vectors.matching (some b)).map (·.offset)).Nodup :=
    h.vectors.offsets_nodup.sublist (List.filter_sublist.map _)
  have hset : ((M.vectors.matching (some b)).map (·.offset)).toFinset = b.elems := by
    ext o
    rw [List.mem_toFinset, List.mem_map]
    constructor
    · rintro ⟨r, hr, rfl⟩
      exact of_decide_eq_true (List.mem_filter.mp hr).2
    · intro ho
      obtain ⟨label, hlabel⟩ := hb o ho
      obtain ⟨r, hr, -, hro⟩ := h.vectors.offsetOf_eq_some.mp hlabel
      exact ⟨r, List.mem_filter.mpr ⟨hr, decide_eq_true (hro.symm ▸ ho)⟩, hro⟩
  rw [← hset, List.toFinset_card_of_nodup hnodup, List.length_map]

omit [DoubleArith D] in
theorem Traceless.length_recall (h : M.Traceless) (query : Q) {topk : Nat}
    (htopk : M.vectors.getDataNum ≤ topk) (bitmap : BitmapPtr) :
    (M.performVectorRecall P query topk bitmap).labels.length =
      (M.vectors.matching bitmap).length := by
  have hle : (M.vectors.matching bitmap).length ≤ topk := by
    refine le_trans ?_ htopk
    cases bitmap with
    | none => exact le_rfl
    | some b => exact List.length_filter_le _ _
  show (List.map _ _).length = _
  rw [List.length_map, (h.vectors.searchKnn_isKnn (P.score query) topk bitmap).length,
    Nat.min_eq_right hle]

theorem Traceless.countsAgree (h : M.Traceless) {filterOp : Option (FilterOp D)}
    (hop : M.Answerable filterOp) : CountsAgree P M filterOp := by
  intro countDsl searchDsl counter query query' topk topk' hcount hfields hsearch htopk
  cases filterOp with
  | none =>
      have hlen := h.length_recall P query htopk none
      simp only [search, hcount, hsearch, bind, Except.bind, filterBitmap, handleSorterQuery]
      show _ = CounterOp.totalCount (M.performVectorRecall P query topk none).labels.length
      rw [hlen]
      rfl
  | some op =>
      cases hb : calcBitmap P.regex M.scalar op with
      | none =>
          simp only [search, hcount, hsearch, bind, Except.bind, filterBitmap, hb]
          rfl
      | some b =>
          have hlive : ∀ o ∈ b.elems, M.Live o := by
            intro o ho
            refine h.live_of_mem P hop ?_
            rw [hb]
            exact ho
          have hlen := h.length_recall P query htopk (some b)
          rw [h.length_matching hlive] at hlen
          simp only [search, hcount, hsearch, bind, Except.bind, filterBitmap, hb,
            handleSorterQuery, SorterOpBase.calcTopkResult, CounterOp.calcTopkResult, hfields]
          show _ = CounterOp.totalCount (M.performVectorRecall P query topk (some b)).labels.length
          rw [hlen]

/-- In every state that careful calls lead to, a count is the number of labels a search
finds, under every filter that can be answered. -/
theorem counting_along (schema : AList (fun _ : Str => FieldType)) (calls : List (DataCall D V))
    (h : Guarded perform CarefulCall (IndexManager.new V schema : IndexManager D V) calls) :
    Along perform (fun M : IndexManager D V => ∀ op, M.Answerable op → CountsAgree P M op)
      (IndexManager.new V schema) calls := by
  have hagree : ∀ M : IndexManager D V, M.Traceless →
      ∀ op, M.Answerable op → CountsAgree P M op :=
    fun M hM op hop => hM.countsAgree P hop
  exact along_of_guarded (fun _ _ hM hc => hM.perform hc) hagree (traceless_new schema) h

end IndexManager

/-! ## A deleted record is counted -/

namespace Sample

open IndexManager

def colorSchema : AList (fun _ : Str => FieldType) := AList.singleton "color".toList .string

/-- `{"color": color}` -/
def colored (color : String) : List (Member Int) := [.mk "color".toList (text color)]

/-- A blue record comes and goes, a red one stays. -/
def blueGone : List (DataCall Int Unit) :=
  [.addData [⟨7, (), colored "blue", []⟩], .deleteData [⟨7, colored "blue"⟩],
    .addData [⟨8, (), colored "red", []⟩]]

theorem entry_of_mem_bits {g : FieldBitmapGroup Int} {key : Str} {o : Nat} (h : o ∈ g.bits key) :
    ∃ b, (⟨key, b⟩ : Sigma fun _ : Str => Bitmap) ∈ g.bitmaps.entries := by
  cases hb : g.getBitmap key with
  | none =>
      rw [FieldBitmapGroup.bits, hb] at h
      cases h
  | some b => exact ⟨b, List.of_mem_dlookup hb⟩

/-- The deletion covers what the blue record is filed under. -/
theorem blue_covered :
    (perform (IndexManager.new Unit colorSchema)
      (.addData [⟨7, (), colored "blue", []⟩] : DataCall Int Unit)).scalar.Covers 0
        (FieldsDict.parseFromJson (colored "blue")) := by
  intro f g hg
  have hentry := List.of_mem_dlookup hg
  change (⟨f, g⟩ : Sigma fun _ : Str => FieldBitmapGroup Int) ∈ [_] at hentry
  cases List.mem_singleton.mp hentry
  refine ⟨?_, ?_⟩
  · intro key hkey
    obtain ⟨b, hb⟩ := entry_of_mem_bits hkey
    change (⟨key, b⟩ : Sigma fun _ : Str => Bitmap) ∈ [_] at hb
    cases List.mem_singleton.mp hb
    exact ⟨"blue".toList, rfl, by decide +kernel⟩
  · rintro ⟨m, hm, -⟩
    cases hm

theorem counting_blueGone :
    Along perform (fun M : IndexManager Int Unit =>
        ∀ op, M.Answerable op → CountsAgree platform M op)
      (IndexManager.new Unit colorSchema) blueGone := by
  refine counting_along platform colorSchema blueGone ?_
  have hroom : ∀ n : Nat, n < 2 → 1 < 2 ^ 31 ∧ n < 2 ^ 32 := fun n hn => by omega
  refine ⟨⟨fun _ => hroom 0 (by decide), trivial⟩, ⟨fun o ho => ?_, trivial⟩,
    ⟨fun _ => hroom 1 (by decide), trivial⟩, trivial⟩
  have hzero : some o = some 0 := ho.symm.trans (by decide +kernel)
  cases hzero
  exact blue_covered

/-- Under `must_not color green` the deleted record is counted and not found. -/
theorem deleted_record_counted :
    ((blueGone.foldl perform (IndexManager.new Unit colorSchema)).search platform
        ⟨none, 0, .json (.obj (filterDoc (fieldJson "must_not" "color" ["green"]) ++
          [.mk "sorter".toList (.obj [.mk "op".toList (text "count")])]))⟩).toOption.map
        (·.counts) = some (CounterOp.totalCount 2) ∧
      ∃ found, (blueGone.foldl perform (IndexManager.new Unit colorSchema)).search platform
          ⟨some (), 2, .json (.obj (filterDoc (fieldJson "must_not" "color" ["green"])))⟩ =
            .ok found ∧ found.labels.length = 1 := by
  refine ⟨by decide +kernel, _, rfl, ?_⟩
  have hcons : (blueGone.foldl perform (IndexManager.new Unit colorSchema)).vectors.Consistent := by
    have hempty := BruteforceSearch.consistent_empty (V := Unit)
    have hno : (BruteforceSearch.empty : BruteforceSearch Unit).offsetOf 7 = none := rfl
    have hblue := (hempty.addPoint_new hno (Nat.two_pow_pos 32) ()).1
    have hgone := (hblue.removePoint_rows 7).1
    have hno' : ((BruteforceSearch.empty.addPoint 7 ()).removePoint 7).offsetOf 8 = none := by
      decide +kernel
    exact (hgone.addPoint_new hno' (by decide +kernel) ()).1
  have hknn := hcons.searchKnn_isKnn (platform.score ()) 2
    (calcBitmap platform.regex (blueGone.foldl perform (IndexManager.new Unit colorSchema)).scalar
      (.mustNot "color".toList ["green".toList] (-1)))
  show (List.map _ _).length = 1
  rw [List.length_map]
  exact hknn.length.trans (by decide +kernel)

end Sample

end OpenViking.Index
