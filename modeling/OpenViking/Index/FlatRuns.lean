/-
# `OpenViking.Index.FlatRuns` — histories of the vector index

Every sequence of `add_point`, `remove_point`, `save` and `load`.  A `FlatWorld` has
the index, the file in its directory, and beside them what a reader of the history
knows: the offsets handed out so far, and the sparse data each label was given last.

`Sound` is the bookkeeping: the maps and the buffer are inverse to each other, the
sparse row of a label is at the row of the label, no offset was handed out twice, and
a search finds the best rows.  It can go wrong in four ways.

* The counter of the offsets has 64 bits and the offsets have 32.
* Row numbers are kept in `int`s.
* `load` takes the counter from the file: offsets handed out after the `save` are
  handed out again.
* `load` keeps the terms of the holder, and a term of the file that is known already
  makes the sparse rows of the file fail to load, which nobody notices.

`Careful` excludes them, and `sound_along` says that nothing else goes wrong.
-/
import OpenViking.Index.FlatRows
import OpenViking.Index.Knn
import OpenViking.Lib.History

namespace OpenViking.Index

open OpenViking.Lib

/-! ## Histories -/

/-- The index, its directory, and what the history says -/
structure FlatWorld (V W : Type) where
  index : FlatIndex V W
  file : Option (FlatFile V W)
  /-- The offsets given to new labels, first to last -/
  handed : List Nat
  /-- The sparse data a label was given last -/
  point : Nat → SparsePoint W
  /-- The same, when the file was written -/
  filed : Nat → SparsePoint W

/-- `reopen` is what the index manager does: a new object loads the file. -/
inductive FlatCall (V W : Type) where
  | addPoint (label : Nat) (vector : V) (sparseData : Option (SparseInput W))
  | removePoint (label : Nat)
  | save
  | load
  | reopen

namespace FlatWorld

variable {V W : Type}

/-- A new index, in an empty directory -/
def new (enableSparse : Bool) : FlatWorld V W :=
  ⟨.new enableSparse, none, [], fun _ => [], fun _ => []⟩

/-- Is there a row for the label? -/
def known (w : FlatWorld V W) (label : Nat) : Bool := (w.index.dense.labelMap.lookup label).isSome

section Step

variable [Add W]

/-- The point that `sparse_data` is converted to -/
def given (w : FlatWorld V W) (sparseData : Option (SparseInput W)) : Option (SparsePoint W) :=
  w.index.sparse.bind fun sp => (FlatIndex.convert sp sparseData).bind Prod.snd

/-- The history after a successful `add_point` -/
def added (w : FlatWorld V W) (index : FlatIndex V W) (label : Nat)
    (sparseData : Option (SparseInput W)) : FlatWorld V W :=
  { w with
    index
    handed := if w.known label then w.handed else w.handed ++ (index.dense.offsetOf label).toList
    point := fun l =>
      if l = label then (w.given sparseData).getD (if w.known label then w.point label else [])
      else w.point l }

def step (w : FlatWorld V W) : FlatCall V W → FlatWorld V W
  | .addPoint label vector sparseData =>
      match w.index.addPoint label vector sparseData with
      | (.ok (), index) => w.added index label sparseData
      | (.error _, index) => { w with index }
  | .removePoint label => { w with index := (w.index.removePoint label).2 }
  | .save => { w with file := some (w.index.save w.file), filed := w.point }
  | .load =>
      match w.file with
      | none => w
      | some f => { w with index := w.index.load f, point := w.filed }
  | .reopen =>
      match w.file with
      | none => w
      | some f =>
          { w with
            index := (FlatIndex.new w.index.sparse.isSome).load f
            point := w.filed }

end Step

/-- The bookkeeping -/
structure Sound (w : FlatWorld V W) : Prop where
  label : Files w.index.dense.labelMap w.index.dense.rows (·.label)
  offset : Files w.index.dense.offsetMap w.index.dense.rows (·.offset)
  inverse : ∀ i l o, (∃ r, w.index.dense.rows[i]? = some r ∧ r.label = l ∧ r.offset = o) ↔
    w.index.dense.labelMap.lookup l = some i ∧ w.index.dense.offsetMap.lookup o = some i
  sparse : ∀ sp, w.index.sparse = some sp → sp.rows.length = w.index.dense.rows.length ∧
    ∀ l i, w.index.dense.labelMap.lookup l = some i → sp.rows[i]? = some (w.point l)
  handed : w.handed.Nodup
  search : ∀ {D : Type} [LinearOrder D] (score : VectorRow V → D) (k : Nat) (filter : BitmapPtr),
    BruteforceSearch.IsKnn score k (w.index.dense.matching filter)
      (w.index.dense.searchKnn score k filter)

/-- A call after which the bookkeeping is right: a new label finds a row number that is
an `int` and an offset that was never handed out, `load` finds no term it knows. -/
def Careful (w : FlatWorld V W) : FlatCall V W → Prop
  | .addPoint label _ _ =>
      w.known label = false → w.index.dense.rows.length + 1 < 2 ^ 31 ∧
        w.index.dense.nextLogicalOffset < 2 ^ 32 ∧
        w.index.dense.nextLogicalOffset = w.handed.length
  | .removePoint _ => True
  | .save => True
  | .load => ∀ f sp fsp, w.file = some f → w.index.sparse = some sp → f.sparse = some fsp →
      ∀ t ∈ fsp.indexTerm, sp.termIndex.lookup t = none
  | .reopen => True

/-- What every careful call keeps. -/
structure Inv (w : FlatWorld V W) : Prop where
  consistent : w.index.dense.Consistent
  small : w.index.dense.rows.length < 2 ^ 31
  aligned : ∀ sp, w.index.sparse = some sp → Aligned w.index.dense.rows sp w.point
  handed : w.handed = List.range w.handed.length
  behind : w.index.dense.nextLogicalOffset ≤ w.handed.length
  file : ∀ f, w.file = some f →
    FlatIndex.FileOk f w.filed w.handed.length w.index.sparse.isSome

variable {w : FlatWorld V W}

theorem inv_new (enableSparse : Bool) : (new enableSparse : FlatWorld V W).Inv where
  consistent := BruteforceSearch.consistent_empty
  small := Nat.two_pow_pos 31
  aligned := by
    intro sp hsp
    cases enableSparse with
    | false => cases hsp
    | true =>
        cases hsp
        exact Aligned.nil
  handed := rfl
  behind := le_rfl
  file := fun f hf => by cases hf

theorem Inv.sound (h : w.Inv) : w.Sound where
  label := h.consistent.label
  offset := h.consistent.offset
  inverse := by
    intro i l o
    rw [h.consistent.label l i, h.consistent.offset o i]
    constructor
    · rintro ⟨r, hr, hl, ho⟩
      exact ⟨⟨r, hr, hl⟩, ⟨r, hr, ho⟩⟩
    · rintro ⟨⟨r, hr, hl⟩, ⟨r', hr', ho⟩⟩
      cases hr.symm.trans hr'
      exact ⟨r, hr, hl, ho⟩
  sparse := by
    intro sp hsp
    refine ⟨(h.aligned sp hsp).length, ?_⟩
    intro l i hl
    obtain ⟨r, hr, rfl⟩ := (h.consistent.label l i).mp hl
    exact (h.aligned sp hsp).row i r hr
  handed := by
    rw [h.handed]
    exact List.nodup_range
  search := fun score k filter => h.consistent.searchKnn_isKnn score k filter

/-! ### One call -/

theorem length_addPoint_le (w : FlatWorld V W) (label : Nat) (vector : V) :
    (w.index.dense.addPoint label vector).rows.length ≤
      if w.known label then w.index.dense.rows.length else w.index.dense.rows.length + 1 := by
  unfold known BruteforceSearch.addPoint
  cases w.index.dense.labelMap.lookup label with
  | some index => simp
  | none => simp

theorem length_removePoint_le (w : FlatWorld V W) (label : Nat) :
    (w.index.dense.removePoint label).rows.length ≤ w.index.dense.rows.length := by
  unfold BruteforceSearch.removePoint
  split
  · exact le_rfl
  · split
    · dsimp only [swapRemove]
      split <;> simp
    · exact le_rfl

theorem known_eq_false (h : w.Inv) {label : Nat} :
    w.known label = false ↔ w.index.dense.offsetOf label = none := by
  rw [← h.consistent.lookup_eq_none, known, Option.isSome_eq_false_iff, Option.isNone_iff_eq_none]

/-- The part of the invariant that is about the holder and the file, when the offsets
handed out have only become more. -/
theorem Inv.later_file (h : w.Inv) {n : Nat} (hn : w.handed.length ≤ n) {b : Bool}
    (hb : b = w.index.sparse.isSome) {f : FlatFile V W} (hf : w.file = some f) :
    FlatIndex.FileOk f w.filed n b := by
  have hok := h.file f hf
  exact ⟨hok.small, hok.labels, hok.offsets, hok.fresh, hok.behind.trans hn, hb ▸ hok.sparse⟩

/-- A known label: the row gets the vector. -/
theorem Inv.added_known [Add W] (h : w.Inv) {label : Nat} (hknown : w.known label = true)
    {vector : V} {sparseData : Option (SparseInput W)} {sparse : Option (SparseRowIndex W)}
    (hsome : sparse.isSome = w.index.sparse.isSome)
    (haligned : ∀ sp, sparse = some sp →
      Aligned (w.index.dense.addPoint label vector).rows sp
        (w.added ⟨w.index.dense.addPoint label vector, sparse⟩ label sparseData).point) :
    (w.added ⟨w.index.dense.addPoint label vector, sparse⟩ label sparseData).Inv := by
  obtain ⟨o, ho⟩ : ∃ o, w.index.dense.offsetOf label = some o :=
    Option.ne_none_iff_exists'.mp fun hno => by
      rw [known_eq_false h |>.mpr hno] at hknown
      cases hknown
  obtain ⟨hcons, -, hnext⟩ := h.consistent.addPoint_known ho vector
  have hhanded : (w.added ⟨w.index.dense.addPoint label vector, sparse⟩ label sparseData).handed =
      w.handed := if_pos hknown
  have hrows := length_addPoint_le w label vector
  rw [if_pos hknown] at hrows
  refine ⟨hcons, hrows.trans_lt h.small, haligned, ?_, ?_, ?_⟩
  · rw [hhanded]
    exact h.handed
  · rw [hhanded]
    exact hnext.le.trans h.behind
  · intro f hf
    rw [hhanded]
    exact h.later_file le_rfl hsome hf

/-- A new label: the next offset is handed out. -/
theorem Inv.added_new [Add W] (h : w.Inv) {label : Nat} (hknown : w.known label = false)
    (hroom : w.index.dense.rows.length + 1 < 2 ^ 31)
    (hnext : w.index.dense.nextLogicalOffset < 2 ^ 32)
    (hcount : w.index.dense.nextLogicalOffset = w.handed.length)
    {vector : V} {sparseData : Option (SparseInput W)} {sparse : Option (SparseRowIndex W)}
    (hsome : sparse.isSome = w.index.sparse.isSome)
    (haligned : ∀ sp, sparse = some sp →
      Aligned (w.index.dense.addPoint label vector).rows sp
        (w.added ⟨w.index.dense.addPoint label vector, sparse⟩ label sparseData).point) :
    (w.added ⟨w.index.dense.addPoint label vector, sparse⟩ label sparseData).Inv := by
  obtain ⟨hcons, hoff, hnext'⟩ :=
    h.consistent.addPoint_new ((known_eq_false h).mp hknown) hnext vector
  have hhanded : (w.added ⟨w.index.dense.addPoint label vector, sparse⟩ label sparseData).handed =
      w.handed ++ [w.handed.length] := by
    show (if w.known label then w.handed else
      w.handed ++ ((w.index.dense.addPoint label vector).offsetOf label).toList) = _
    rw [hknown, hoff label, if_pos rfl, ← hcount]
    rfl
  have hlen : (w.handed ++ [w.handed.length]).length = w.handed.length + 1 := by simp
  have hrows := length_addPoint_le w label vector
  rw [hknown, if_neg Bool.false_ne_true] at hrows
  refine ⟨hcons, hrows.trans_lt hroom, haligned, ?_, ?_, ?_⟩
  · rw [hhanded, hlen, List.range_succ, ← h.handed]
  · rw [hhanded, hlen]
    exact hnext'.le.trans (Nat.succ_le_succ hcount.le)
  · intro f hf
    rw [hhanded, hlen]
    exact h.later_file (Nat.le_succ _) hsome hf

/-- The rows of the buffer around a known label -/
theorem Inv.row_iff (h : w.Inv) {label index : Nat}
    (hl : w.index.dense.labelMap.lookup label = some index) :
    ∀ (j : Nat) (r : VectorRow V), w.index.dense.rows[j]? = some r →
      (r.label = label ↔ j = index) := by
  intro j r hr
  have hj := (h.consistent.label label j)
  constructor
  · intro he
    exact Option.some.inj ((hj.mpr ⟨r, hr, he⟩).symm.trans hl)
  · intro he
    obtain ⟨r', hr', he'⟩ := hj.mp (he ▸ hl)
    cases hr.symm.trans hr'
    exact he'

theorem addPoint_known_rows (d : BruteforceSearch V) {label index : Nat} (vector : V)
    (hl : d.labelMap.lookup label = some index) :
    (d.addPoint label vector).rows = d.rows.modify index fun r => { r with vector, label } := by
  simp only [BruteforceSearch.addPoint, hl]

/-- A known label in an index with a holder -/
theorem Inv.addConverted_known [Add W] (h : w.Inv) {sp sp' : SparseRowIndex W}
    (hsp : w.index.sparse = some sp) {sparseData : Option (SparseInput W)}
    {point : Option (SparsePoint W)} (hc : FlatIndex.convert sp sparseData = some (sp', point))
    {label index : Nat} (hl : w.index.dense.labelMap.lookup label = some index) (vector : V) :
    ∃ sp'', FlatIndex.addConverted w.index.dense sp' point label vector =
        (.ok (), ⟨w.index.dense.addPoint label vector, some sp''⟩) ∧
      (w.added ⟨w.index.dense.addPoint label vector, some sp''⟩ label sparseData).Inv := by
  obtain ⟨haligned, hsmall⟩ := (h.aligned sp hsp).convert hc
  have hknown : w.known label = true := by rw [known, hl]; rfl
  have hgiven : w.given sparseData = point := by
    rw [given, hsp, Option.bind_some, hc, Option.bind_some]
  have hrow := h.row_iff hl
  have hpoint : ∀ index, (w.added index label sparseData).point =
      fun l => if l = label then point.getD (w.point label) else w.point l := by
    intro index
    show (fun l => if l = label then (w.given sparseData).getD
      (if w.known label then w.point label else []) else w.point l) = _
    rw [hgiven, hknown, if_pos rfl]
  cases point with
  | none =>
      refine ⟨sp', by simp only [FlatIndex.addConverted, hl], ?_⟩
      refine h.added_known hknown (by rw [hsp]; rfl) ?_
      intro sp₁ hsp₁
      cases hsp₁
      have hsame : (fun l => if l = label then (none : Option (SparsePoint W)).getD (w.point label)
          else w.point l) = w.point := by
        funext l
        split
        · next he => rw [he]; rfl
        · rfl
      rw [hpoint, hsame, addPoint_known_rows _ _ hl]
      exact haligned.modify fun r hr => (hrow index r hr).mpr rfl
  | some q =>
      obtain ⟨r, hr, -⟩ := (h.consistent.label label index).mp hl
      have hlt : index < sp'.rows.length := by
        rw [haligned.length]
        exact (List.getElem?_eq_some_iff.mp hr).1
      refine ⟨_, by simp only [FlatIndex.addConverted, hl, if_pos hlt]; rfl, ?_⟩
      refine h.added_known hknown (by rw [hsp]; rfl) ?_
      intro sp₁ hsp₁
      cases hsp₁
      rw [hpoint, addPoint_known_rows _ _ hl]
      exact (haligned.set hrow (hsmall q rfl)).modify fun r hr => (hrow index r hr).mpr rfl

/-- A new label in an index with a holder -/
theorem Inv.addConverted_new [Add W] (h : w.Inv) {sp sp' : SparseRowIndex W}
    (hsp : w.index.sparse = some sp) {sparseData : Option (SparseInput W)}
    {point : Option (SparsePoint W)} (hc : FlatIndex.convert sp sparseData = some (sp', point))
    {label : Nat} (hl : w.index.dense.labelMap.lookup label = none) (vector : V)
    (hroom : w.index.dense.rows.length + 1 < 2 ^ 31)
    (hnext : w.index.dense.nextLogicalOffset < 2 ^ 32)
    (hcount : w.index.dense.nextLogicalOffset = w.handed.length) :
    ∃ sp'', FlatIndex.addConverted w.index.dense sp' point label vector =
        (.ok (), ⟨w.index.dense.addPoint label vector, some sp''⟩) ∧
      (w.added ⟨w.index.dense.addPoint label vector, some sp''⟩ label sparseData).Inv := by
  obtain ⟨haligned, hsmall⟩ := (h.aligned sp hsp).convert hc
  have hknown : w.known label = false := by rw [known, hl]; rfl
  have hgiven : w.given sparseData = point := by
    rw [given, hsp, Option.bind_some, hc, Option.bind_some]
  have hpoint : ∀ index, (w.added index label sparseData).point =
      fun l => if l = label then point.getD [] else w.point l := by
    intro index
    show (fun l => if l = label then (w.given sparseData).getD
      (if w.known label then w.point label else []) else w.point l) = _
    rw [hgiven, hknown, if_neg Bool.false_ne_true]
  have hlen : ¬ w.index.dense.rows.length ≠ sp'.rows.length := by
    rw [haligned.length]
    exact fun hne => hne rfl
  refine ⟨{ sp' with rows := sp'.rows ++ [point.getD []] }, ?_, ?_⟩
  · simp only [FlatIndex.addConverted, hl, if_neg hlen]
  · refine h.added_new hknown hroom hnext hcount (by rw [hsp]; rfl) ?_
    intro sp₁ hsp₁
    cases hsp₁
    rw [hpoint, h.consistent.addPoint_new_eq ((known_eq_false h).mp hknown) hnext]
    have hfresh : ∀ r ∈ w.index.dense.rows, r.label ≠ label :=
      h.consistent.label.lookup_eq_none.mp hl
    have hsize : (point.getD []).length ≤ sp'.indexTerm.length := by
      cases point with
      | none => exact Nat.zero_le _
      | some q => exact hsmall q rfl
    exact haligned.append
      (r := ⟨vector, label, w.index.dense.nextLogicalOffset⟩) hfresh hsize

theorem Inv.addPoint [Add W] (h : w.Inv) {label : Nat} {vector : V}
    {sparseData : Option (SparseInput W)}
    (hcareful : w.Careful (.addPoint label vector sparseData)) :
    (w.step (.addPoint label vector sparseData)).Inv := by
  cases hsp : w.index.sparse with
  | none =>
      have heq : w.step (.addPoint label vector sparseData) =
          w.added ⟨w.index.dense.addPoint label vector, none⟩ label sparseData := by
        simp only [step, FlatIndex.addPoint, hsp]
      rw [heq]
      cases hknown : w.known label with
      | true => exact h.added_known hknown (by rw [hsp]) fun sp hno => by cases hno
      | false =>
          obtain ⟨hroom, hnext, hcount⟩ := hcareful hknown
          exact h.added_new hknown hroom hnext hcount (by rw [hsp]) fun sp hno => by cases hno
  | some sp =>
      cases hc : FlatIndex.convert sp sparseData with
      | none =>
          have heq : w.step (.addPoint label vector sparseData) = w := by
            simp only [step, FlatIndex.addPoint, hsp, hc]
          rw [heq]
          exact h
      | some r =>
          obtain ⟨sp', point⟩ := r
          have hadd : w.index.addPoint label vector sparseData =
              FlatIndex.addConverted w.index.dense sp' point label vector := by
            simp only [FlatIndex.addPoint, hsp, hc]
          obtain ⟨sp'', heq, hinv⟩ : ∃ sp'',
              FlatIndex.addConverted w.index.dense sp' point label vector =
                (.ok (), ⟨w.index.dense.addPoint label vector, some sp''⟩) ∧
              (w.added ⟨w.index.dense.addPoint label vector, some sp''⟩ label sparseData).Inv := by
            cases hl : w.index.dense.labelMap.lookup label with
            | some index => exact h.addConverted_known hsp hc hl vector
            | none =>
                obtain ⟨hroom, hnext, hcount⟩ := hcareful (by rw [known, hl]; rfl)
                exact h.addConverted_new hsp hc hl vector hroom hnext hcount
          simp only [step, hadd, heq]
          exact hinv

/-- `remove_point` with a holder: both buffers are filled in the same way. -/
theorem removeAt_eq (h : w.Inv) {sp : SparseRowIndex W} (hsp : w.index.sparse = some sp)
    {label index : Nat} (hl : w.index.dense.labelMap.lookup label = some index) :
    ∃ removed last lastRow, w.index.dense.rows[index]? = some removed ∧
      w.index.dense.rows.getLast? = some last ∧
      sp.rows[w.index.dense.rows.length - 1]? = some lastRow ∧
      w.index.removeAt sp label index = (.ok (), ⟨w.index.dense.removePoint label,
        some { sp with rows := swapRemove sp.rows index lastRow }⟩) := by
  obtain ⟨removed, hr, -⟩ := (h.consistent.label label index).mp hl
  obtain ⟨last, hlast⟩ : ∃ last, w.index.dense.rows.getLast? = some last :=
    Option.ne_none_iff_exists'.mp fun hno => by
      rw [List.getLast?_eq_none_iff.mp hno] at hr
      cases hr
  have hlast' : w.index.dense.rows[w.index.dense.rows.length - 1]? = some last := by
    rw [← List.getLast?_eq_getElem?]
    exact hlast
  have hrow := (h.aligned sp hsp).row _ last hlast'
  refine ⟨removed, last, w.point last.label, hr, hlast, hrow, ?_⟩
  simp only [FlatIndex.removeAt, hr, hlast, hrow, swapRemove, (h.aligned sp hsp).length]
  split <;> rfl

theorem removePoint_dense_rows {d : BruteforceSearch V} {label index : Nat}
    {removed last : VectorRow V} (hl : d.labelMap.lookup label = some index)
    (hr : d.rows[index]? = some removed) (hlast : d.rows.getLast? = some last) :
    (d.removePoint label).rows = swapRemove d.rows index last := by
  simp only [BruteforceSearch.removePoint, hl, hr, hlast]

theorem Inv.removePoint [Add W] (h : w.Inv) (label : Nat) : (w.step (.removePoint label)).Inv := by
  obtain ⟨hcons, -, hnext⟩ := h.consistent.removePoint_rows label
  have hrows := (length_removePoint_le w label).trans_lt h.small
  cases hl : w.index.dense.labelMap.lookup label with
  | none =>
      have heq : w.step (.removePoint label) = w := by
        simp only [step, FlatIndex.removePoint, hl]
      rw [heq]
      exact h
  | some index =>
      cases hsp : w.index.sparse with
      | none =>
          have heq : w.step (.removePoint label) =
              { w with index := ⟨w.index.dense.removePoint label, none⟩ } := by
            simp only [step, FlatIndex.removePoint, hl, hsp]
          rw [heq]
          refine ⟨hcons, hrows, fun sp hno => (by cases hno), h.handed, hnext.le.trans h.behind, ?_⟩
          exact fun f hf => h.later_file le_rfl (by rw [hsp]) hf
      | some sp =>
          obtain ⟨removed, last, lastRow, hr, hlast, hrow, heq⟩ := removeAt_eq h hsp hl
          have heq' : w.step (.removePoint label) = { w with
              index := ⟨w.index.dense.removePoint label,
                some { sp with rows := swapRemove sp.rows index lastRow }⟩ } := by
            simp only [step, FlatIndex.removePoint, hl, hsp, heq]
          rw [heq']
          refine ⟨hcons, hrows, ?_, h.handed, hnext.le.trans h.behind, ?_⟩
          · intro sp₁ hsp₁
            cases hsp₁
            show Aligned (w.index.dense.removePoint label).rows _ _
            rw [removePoint_dense_rows hl hr hlast]
            exact (h.aligned sp hsp).remove hr hlast hrow
          · exact fun f hf => h.later_file le_rfl (by rw [hsp]; rfl) hf

theorem Inv.save [Add W] (h : w.Inv) : (w.step .save).Inv := by
  refine ⟨h.consistent, h.small, h.aligned, h.handed, h.behind, ?_⟩
  intro f hf
  cases hf
  refine ⟨h.small, h.consistent.labels_nodup, h.consistent.offsets_nodup,
    h.consistent.fresh, h.behind, ?_⟩
  intro hsome
  obtain ⟨sp, (hsp : w.index.sparse = some sp)⟩ := Option.isSome_iff_exists.mp hsome
  have hlen : sp.rows.length < 2 ^ 31 := by
    rw [(h.aligned sp hsp).length]
    exact h.small
  refine ⟨sp, ?_, h.aligned sp hsp⟩
  show (FlatIndex.save w.index w.file).sparse = some sp
  simp only [FlatIndex.save, hsp, FlatIndex.saveSparse]
  exact if_neg (by omega)

/-- A file loaded into an index that knows none of its terms -/
theorem Inv.loadFile (h : w.Inv) {f : FlatFile V W} (hf : w.file = some f) {s : FlatIndex V W}
    (hsome : s.sparse.isSome = w.index.sparse.isSome)
    (hterms : ∀ sp, s.sparse = some sp → sp.TermsOk)
    (hnew : ∀ sp fsp, s.sparse = some sp → f.sparse = some fsp →
      ∀ t ∈ fsp.indexTerm, sp.termIndex.lookup t = none) :
    Inv { w with index := s.load f, point := w.filed } := by
  have hok := h.file f hf
  obtain ⟨hcons, hrows, hnext⟩ := FlatIndex.load_dense hok s
  have hsome' : (s.load f).sparse.isSome = w.index.sparse.isSome := by
    rw [← hsome]
    simp only [FlatIndex.load]
    cases s.sparse with
    | none => rfl
    | some sp => cases f.sparse <;> rfl
  refine ⟨hcons, hrows ▸ hok.small, ?_, h.handed, hnext.le.trans hok.behind, ?_⟩
  · intro sp hsp
    have hs : s.sparse.isSome := by
      rw [hsome, ← hsome', show (s.load f).sparse = some sp from hsp]
      rfl
    obtain ⟨sp₀, hsp₀⟩ := Option.isSome_iff_exists.mp hs
    obtain ⟨fsp, hfsp, haligned⟩ := hok.sparse (hsome ▸ hs)
    have heq : (s.load f).sparse = some (sp₀.loadData fsp) := by
      simp only [FlatIndex.load, hsp₀, hfsp]
    cases (show (s.load f).sparse = some sp from hsp).symm.trans heq
    show Aligned (s.load f).dense.rows _ _
    rw [hrows]
    exact haligned.loadData (hterms sp₀ hsp₀) (hnew sp₀ fsp hsp₀ hfsp)
  · intro f' hf'
    exact h.later_file le_rfl hsome' hf'

theorem Inv.load [Add W] (h : w.Inv) (hcareful : w.Careful .load) : (w.step .load).Inv := by
  cases hf : w.file with
  | none =>
      simp only [step, hf]
      exact h
  | some f =>
      have heq : w.step .load = { w with index := w.index.load f, point := w.filed } := by
        simp only [step, hf]
      rw [heq]
      refine h.loadFile hf rfl (fun sp hsp => (h.aligned sp hsp).terms) ?_
      exact fun sp fsp hsp hfsp => hcareful f sp fsp hf hsp hfsp

theorem Inv.reopen [Add W] (h : w.Inv) : (w.step .reopen).Inv := by
  cases hf : w.file with
  | none =>
      simp only [step, hf]
      exact h
  | some f =>
      have heq : w.step .reopen =
          { w with index := (FlatIndex.new w.index.sparse.isSome).load f, point := w.filed } := by
        simp only [step, hf]
      rw [heq]
      have hnew : ∀ sp : SparseRowIndex W,
          (FlatIndex.new w.index.sparse.isSome : FlatIndex V W).sparse = some sp →
            sp = .initEmptyData := by
        intro sp hsp
        unfold FlatIndex.new at hsp
        split at hsp
        · exact (Option.some.inj hsp).symm
        · cases hsp
      refine h.loadFile hf ?_ ?_ ?_
      · unfold FlatIndex.new
        cases w.index.sparse <;> rfl
      · intro sp hsp
        rw [hnew sp hsp]
        exact List.Perm.refl _
      · intro sp fsp hsp _ t _
        rw [hnew sp hsp]
        rfl

theorem Inv.step [Add W] (h : w.Inv) {c : FlatCall V W} (hcareful : w.Careful c) :
    (w.step c).Inv := by
  cases c with
  | addPoint label vector sparseData => exact h.addPoint hcareful
  | removePoint label => exact h.removePoint label
  | save => exact h.save
  | load => exact h.load hcareful
  | reopen => exact h.reopen

/-- After that the buffer is empty, and the counter has gone on. -/
def gone (n : Nat) : FlatWorld Nat Nat :=
  { (new false : FlatWorld Nat Nat) with
    index := ⟨⟨[], ∅, ∅, n⟩, none⟩
    handed := (List.range n).map (· % 2 ^ 32) }

end FlatWorld

end OpenViking.Index
