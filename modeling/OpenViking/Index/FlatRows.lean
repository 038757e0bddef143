/-
# `OpenViking.Index.FlatRows` — rows, sparse rows and the file

What each operation of the vector index does to the pairing of rows and sparse rows
(`Aligned`): conversion of sparse data only adds terms, a new row comes with a new
sparse row, a removed row is filled in both buffers from the same place, and a file is
read back as it was written when its terms are new to the holder
(`Aligned.loadData`).  The maps rebuilt from the rows of a file are right if its labels
and offsets are distinct (`FlatIndex.load_dense`).
-/
import OpenViking.Index.FlatIndex
import Mathlib.Data.List.TakeWhile

namespace OpenViking.Index

open OpenViking.Lib

/-! ## Terms of the holder -/

namespace SparseRowIndex

variable {W : Type} {s : SparseRowIndex W}

/-- The list of the terms and the numbering know the same terms. -/
def TermsOk (s : SparseRowIndex W) : Prop := s.indexTerm.Perm s.termIndex.keys

theorem TermsOk.mem_indexTerm (h : s.TermsOk) {term : Nat} :
    term ∈ s.indexTerm ↔ (s.termIndex.lookup term).isSome := by
  rw [List.Perm.mem_iff h, AList.lookup_isSome, AList.mem_keys]

theorem TermsOk.push (h : s.TermsOk) {term number : Nat} (hno : s.termIndex.lookup term = none) :
    TermsOk { s with
      termIndex := s.termIndex.insert term number
      indexTerm := s.indexTerm ++ [term] } := by
  have hmem : term ∉ s.termIndex.keys := by
    rw [← AList.mem_keys]
    exact AList.lookup_eq_none.mp hno
  have hkeys : (s.termIndex.insert term number).keys = term :: s.termIndex.keys := by
    rw [AList.keys_insert, List.erase_of_not_mem hmem]
  show (s.indexTerm ++ [term]).Perm (s.termIndex.insert term number).keys
  rw [hkeys]
  exact (List.perm_append_singleton term s.indexTerm).trans (h.cons term)

/-- What the loop of `index_by_terms` keeps, from the holder it started with. -/
structure Indexing (start : SparseRowIndex W) (acc : SparseRowIndex W × Entries W) : Prop where
  terms : acc.1.TermsOk
  rows : acc.1.rows = start.rows
  grown : start.indexTerm.length ≤ acc.1.indexTerm.length
  distinct : (acc.2.map Prod.fst).Nodup
  known : ∀ term ∈ acc.2.map Prod.fst, term ∈ acc.1.indexTerm

theorem numberTerm_ok (h : s.TermsOk) (term : Nat) :
    (s.numberTerm term).TermsOk ∧ (s.numberTerm term).rows = s.rows ∧
      s.indexTerm.length ≤ (s.numberTerm term).indexTerm.length ∧
      (∀ t ∈ s.indexTerm, t ∈ (s.numberTerm term).indexTerm) ∧
      term ∈ (s.numberTerm term).indexTerm := by
  cases hl : s.termIndex.lookup term with
  | some number =>
      have heq : s.numberTerm term = s := by simp only [numberTerm, hl]
      rw [heq]
      exact ⟨h, rfl, le_rfl, fun t ht => ht, h.mem_indexTerm.mpr (by rw [hl]; rfl)⟩
  | none =>
      have heq : s.numberTerm term = { s with
          termIndex := s.termIndex.insert term s.termIndex.keys.length
          indexTerm := s.indexTerm ++ [term] } := by simp only [numberTerm, hl]
      rw [heq]
      refine ⟨h.push hl, rfl, ?_, ?_, ?_⟩
      · show s.indexTerm.length ≤ (s.indexTerm ++ [term]).length
        rw [List.length_append]
        exact Nat.le_add_right _ _
      · intro t ht
        exact List.mem_append_left _ ht
      · exact List.mem_append_right _ List.mem_cons_self

theorem map_fst_addEntry [Add W] (entries : Entries W) (term index : Nat) (value : W) :
    (addEntry entries term index value).map Prod.fst =
      if term ∈ entries.map Prod.fst then entries.map Prod.fst
      else entries.map Prod.fst ++ [term] := by
  unfold addEntry
  split
  · rw [List.map_map]
    refine List.map_congr_left fun e _ => ?_
    show (if e.1 = term then (e.1, e.2.1, e.2.2 + value) else e).1 = e.1
    split <;> rfl
  · rw [List.map_append, List.map_singleton]

theorem Indexing.round [Add W] {start : SparseRowIndex W} {acc : SparseRowIndex W × Entries W}
    (h : Indexing start acc) (e : Nat × W) : Indexing start (indexTermValue acc e) := by
  obtain ⟨hterms, hrows, hgrown, hkept, hterm⟩ := numberTerm_ok h.terms e.1
  refine ⟨hterms, hrows.trans h.rows, h.grown.trans hgrown, ?_, ?_⟩
  · show ((addEntry acc.2 e.1 _ e.2).map Prod.fst).Nodup
    rw [map_fst_addEntry]
    split
    · exact h.distinct
    · next hno =>
        rw [List.nodup_append_comm]
        exact List.nodup_cons.mpr ⟨hno, h.distinct⟩
  · intro term ht
    change term ∈ (addEntry acc.2 e.1 _ e.2).map Prod.fst at ht
    rw [map_fst_addEntry] at ht
    split at ht
    · exact hkept term (h.known term ht)
    · rcases List.mem_append.mp ht with ht | ht
      · exact hkept term (h.known term ht)
      · rw [List.mem_singleton.mp ht]
        exact hterm

theorem indexByTerms_ok [Add W] (h : s.TermsOk) (input : List (Nat × W)) :
    (s.indexByTerms input).1.TermsOk ∧ (s.indexByTerms input).1.rows = s.rows ∧
      s.indexTerm.length ≤ (s.indexByTerms input).1.indexTerm.length ∧
      (s.indexByTerms input).2.length ≤ (s.indexByTerms input).1.indexTerm.length := by
  have hfold : ∀ (input : List (Nat × W)) (acc : SparseRowIndex W × Entries W),
      Indexing s acc → Indexing s (input.foldl indexTermValue acc) := by
    intro input
    induction input with
    | nil => exact fun acc hacc => hacc
    | cons e input ih => exact fun acc hacc => ih _ (hacc.round e)
  have hend := hfold input (s, []) ⟨h, rfl, le_rfl, List.nodup_nil, fun _ ht => by cases ht⟩
  refine ⟨hend.terms, hend.rows, hend.grown, ?_⟩
  have hle := (hend.distinct.subperm hend.known).length_le
  rw [List.length_map] at hle
  show (List.mergeSort _ _).length ≤ _
  rw [List.length_mergeSort, List.length_map]
  exact hle

/-- Terms that are all new are read in. -/
theorem loadTerms_eq {s : SparseRowIndex W} {terms : List Nat} (h : s.TermsOk)
    (hnew : ∀ t ∈ terms, s.termIndex.lookup t = none) (hnodup : terms.Nodup) (number : Nat) :
    ∃ s' : SparseRowIndex W, s.loadTerms number terms = (true, s') ∧ s'.TermsOk ∧
      s'.rows = s.rows ∧ s'.indexTerm = s.indexTerm ++ terms := by
  induction terms generalizing s number with
  | nil => exact ⟨s, rfl, h, rfl, (List.append_nil _).symm⟩
  | cons t terms ih =>
      have ht : s.termIndex.lookup t = none := hnew t List.mem_cons_self
      obtain ⟨hnot, hnodup⟩ := List.nodup_cons.mp hnodup
      have hnext : ∀ t' ∈ terms, (s.termIndex.insert t number).lookup t' = none := by
        intro t' ht'
        have hne : t' ≠ t := fun he => hnot (he ▸ ht')
        rw [AList.lookup_insert_ne hne]
        exact hnew t' (List.mem_cons_of_mem _ ht')
      obtain ⟨s', heq, hok, hrows, hterms⟩ := ih (h.push ht) hnext hnodup (number + 1)
      refine ⟨s', ?_, hok, hrows, ?_⟩
      · rw [loadTerms, if_neg (by rw [ht]; exact Bool.false_ne_true)]
        exact heq
      · rw [hterms, List.append_assoc]
        rfl

end SparseRowIndex

/-! ## Rows and sparse rows -/

/-- Row for row, the holder has the sparse data of the label, and its file can be read. -/
structure Aligned {V W : Type} (rows : List (VectorRow V)) (sp : SparseRowIndex W)
    (point : Nat → SparsePoint W) : Prop where
  length : sp.rows.length = rows.length
  row : ∀ (i : Nat) (r : VectorRow V), rows[i]? = some r → sp.rows[i]? = some (point r.label)
  terms : sp.TermsOk
  small : ∀ p ∈ sp.rows, p.length ≤ sp.indexTerm.length

namespace Aligned

variable {V W : Type} {rows : List (VectorRow V)} {sp sp' : SparseRowIndex W}
  {point : Nat → SparsePoint W}

theorem nil : Aligned ([] : List (VectorRow V)) (.initEmptyData : SparseRowIndex W) point :=
  ⟨rfl, fun _ _ h => (by cases h), List.Perm.refl _, fun _ h => (by cases h)⟩

/-- More terms do no harm. -/
theorem more_terms (h : Aligned rows sp point) (hterms : sp'.TermsOk) (hrows : sp'.rows = sp.rows)
    (hgrown : sp.indexTerm.length ≤ sp'.indexTerm.length) : Aligned rows sp' point := by
  refine ⟨by rw [hrows, h.length], fun i r hr => by rw [hrows, h.row i r hr], hterms, ?_⟩
  intro p hp
  rw [hrows] at hp
  exact (h.small p hp).trans hgrown

/-- A converted input: the terms have grown, the rows are as they were. -/
theorem convert [Add W] (h : Aligned rows sp point) {input : Option (SparseInput W)}
    {p : Option (SparsePoint W)} (hc : FlatIndex.convert sp input = some (sp', p)) :
    Aligned rows sp' point ∧ ∀ q, p = some q → q.length ≤ sp'.indexTerm.length := by
  cases input with
  | none =>
      cases hc
      exact ⟨h, fun q hq => by cases hq⟩
  | some input =>
      obtain ⟨⟨sp₁, q⟩, hmake, heq⟩ := Option.map_eq_some_iff.mp hc
      cases heq
      unfold SparseRowIndex.makeSparsePointByLowLevel at hmake
      split at hmake
      · cases hmake
      · next terms hterms =>
          split at hmake
          · cases hmake
          · have heq := Option.some.inj hmake
            obtain ⟨hok, hrows, hgrown, hsmall⟩ :=
              SparseRowIndex.indexByTerms_ok h.terms (terms.zip input.values)
            rw [heq] at hok hrows hgrown hsmall
            refine ⟨h.more_terms hok hrows hgrown, ?_⟩
            intro q' hq'
            cases hq'
            exact hsmall

/-- A row of its own for a new label -/
theorem append (h : Aligned rows sp point) {r : VectorRow V}
    (hnew : ∀ r' ∈ rows, r'.label ≠ r.label) {p : SparsePoint W}
    (hp : p.length ≤ sp.indexTerm.length) :
    Aligned (rows ++ [r]) { sp with rows := sp.rows ++ [p] }
      (fun l => if l = r.label then p else point l) := by
  refine ⟨by simp [h.length], ?_, h.terms, ?_⟩
  · intro i r' hr'
    show (sp.rows ++ [p])[i]? = _
    by_cases hi : i < rows.length
    · rw [List.getElem?_append_left hi] at hr'
      rw [List.getElem?_append_left (h.length ▸ hi), h.row i r' hr',
        if_neg (hnew r' (List.mem_of_getElem? hr'))]
    · have hle := Nat.le_of_not_lt hi
      rw [List.getElem?_append_right hle] at hr'
      rw [List.getElem?_append_right (h.length ▸ hle), h.length]
      cases hj : i - rows.length with
      | zero =>
          rw [hj] at hr'
          cases hr'
          rw [if_pos rfl]
          rfl
      | succ j =>
          rw [hj] at hr'
          cases hr'
  · intro q hq
    rcases List.mem_append.mp hq with hq | hq
    · exact h.small q hq
    · rw [List.mem_singleton.mp hq]
      exact hp

/-- Another vector in the row of the label -/
theorem modify (h : Aligned rows sp point) {i label : Nat} {vector : V}
    (hi : ∀ r, rows[i]? = some r → r.label = label) :
    Aligned (rows.modify i fun r => { r with vector, label }) sp point := by
  refine ⟨by rw [List.length_modify, h.length], ?_, h.terms, h.small⟩
  intro j r hr
  rw [List.getElem?_modify] at hr
  obtain ⟨r₀, hr₀, rfl⟩ := Option.map_eq_some_iff.mp hr
  rw [h.row j r₀ hr₀]
  split
  · next hij =>
      subst hij
      rw [hi r₀ hr₀]
  · rfl

/-- Another sparse row for the label -/
theorem set (h : Aligned rows sp point) {i label : Nat} {p : SparsePoint W}
    (hi : ∀ j r, rows[j]? = some r → (r.label = label ↔ j = i))
    (hp : p.length ≤ sp.indexTerm.length) :
    Aligned rows { sp with rows := sp.rows.set i p }
      (fun l => if l = label then p else point l) := by
  refine ⟨by rw [List.length_set, h.length], ?_, h.terms, ?_⟩
  · intro j r hr
    show (sp.rows.set i p)[j]? = _
    have hj : j < sp.rows.length := by
      rw [h.length]
      exact (List.getElem?_eq_some_iff.mp hr).1
    rw [List.getElem?_set]
    by_cases hij : i = j
    · subst hij
      rw [if_pos rfl, if_pos hj, if_pos ((hi i r hr).mpr rfl)]
    · rw [if_neg hij, h.row j r hr, if_neg fun he => hij ((hi j r hr).mp he).symm]
  · intro q hq
    rcases List.mem_or_eq_of_mem_set hq with hq | rfl
    · exact h.small q hq
    · exact hp

/-- The last row and its sparse row go into the hole together. -/
theorem remove (h : Aligned rows sp point) {i : Nat} {removed last : VectorRow V}
    {lastRow : SparsePoint W} (hi : rows[i]? = some removed) (hlast : rows.getLast? = some last)
    (hrow : sp.rows[rows.length - 1]? = some lastRow) :
    Aligned (swapRemove rows i last) { sp with rows := swapRemove sp.rows i lastRow } point := by
  have hlen : i < rows.length := (List.getElem?_eq_some_iff.mp hi).1
  have hsp : sp.rows[i]? = some (point removed.label) := h.row i removed hi
  have hlabel : lastRow = point last.label := by
    rw [List.getLast?_eq_getElem?] at hlast
    exact Option.some.inj (hrow.symm.trans (h.row _ last hlast))
  have hshort : ∀ {α : Type} (l : List α) (a : α),
      (swapRemove l i a).length = l.length - 1 := by
    intro α l a
    unfold swapRemove
    split <;> simp
  refine ⟨by rw [hshort, hshort, h.length], ?_, h.terms, ?_⟩
  · intro j r hr
    show (swapRemove sp.rows i lastRow)[j]? = _
    rw [Files.getElem?_swapRemove hi] at hr
    rw [Files.getElem?_swapRemove hsp, h.length]
    split at hr
    · next hj =>
        rw [if_pos hj]
        split at hr
        · next hji =>
            cases hr
            rw [if_pos hji, hlabel]
        · next hji => rw [if_neg hji, h.row j r hr]
    · cases hr
  · intro q hq
    obtain ⟨j, hj⟩ := List.mem_iff_getElem?.mp hq
    have hj' : (swapRemove sp.rows i lastRow)[j]? = some q := hj
    rw [Files.getElem?_swapRemove hsp] at hj'
    split at hj'
    · split at hj'
      · cases hj'
        exact h.small _ (List.mem_of_getElem? hrow)
      · exact h.small q (List.mem_of_getElem? hj')
    · cases hj'

/-- A file whose terms are all new is read as it was written. -/
theorem loadData {file : SparseRowIndex W} (h : Aligned rows file point) (hterms : sp.TermsOk)
    (hnew : ∀ t ∈ file.indexTerm, sp.termIndex.lookup t = none) :
    Aligned rows (sp.loadData file) point := by
  have hnodup : file.indexTerm.Nodup := h.terms.nodup_iff.mpr file.termIndex.keys_nodup
  have hempty : SparseRowIndex.TermsOk { sp with rows := ([] : List (SparsePoint W)) } := hterms
  obtain ⟨s', heq, hok, -, hall⟩ := SparseRowIndex.loadTerms_eq hempty hnew hnodup 0
  have hrows : SparseRowIndex.loadRows file.indexTerm.length file.rows = file.rows := by
    refine List.takeWhile_eq_self_iff.mpr fun p hp => ?_
    exact decide_eq_true (h.small p hp)
  have hload : sp.loadData file = { s' with rows := file.rows } := by
    simp only [SparseRowIndex.loadData, heq, hrows]
  rw [hload]
  refine ⟨h.length, h.row, hok, ?_⟩
  intro p hp
  show p.length ≤ s'.indexTerm.length
  rw [hall, List.length_append]
  exact (h.small p hp).trans (Nat.le_add_left _ _)

end Aligned

/-! ## The rows of a file -/

namespace FlatIndex

variable {V W : Type}

/-- `rebuild_maps` files the rows, if labels and offsets are distinct. -/
theorem rebuildMaps_ok {d : BruteforceSearch V} {rows : List (VectorRow V)}
    (hlabel : Files d.labelMap d.rows (·.label)) (hoffset : Files d.offsetMap d.rows (·.offset))
    (hlabels : ((d.rows ++ rows).map (·.label)).Nodup)
    (hoffsets : ((d.rows ++ rows).map (·.offset)).Nodup) :
    (rebuildMaps d d.rows.length rows).rows = d.rows ++ rows ∧
      Files (rebuildMaps d d.rows.length rows).labelMap (d.rows ++ rows) (·.label) ∧
      Files (rebuildMaps d d.rows.length rows).offsetMap (d.rows ++ rows) (·.offset) ∧
      (rebuildMaps d d.rows.length rows).nextLogicalOffset = d.nextLogicalOffset := by
  induction rows generalizing d with
  | nil => simpa [rebuildMaps] using ⟨hlabel, hoffset⟩
  | cons r rows ih =>
      have hnot : ∀ (key : VectorRow V → Nat), ((d.rows ++ r :: rows).map key).Nodup →
          ∀ a ∈ d.rows, key a ≠ key r := by
        intro key hnodup a ha he
        rw [List.map_append, List.map_cons, List.nodup_append] at hnodup
        exact hnodup.2.2 (key a) (List.mem_map_of_mem ha) (key r) List.mem_cons_self he
      have hlabel' := hlabel.append (a := r) (hlabel.lookup_eq_none.mpr (hnot (·.label) hlabels))
      have hoffset' :=
        hoffset.append (a := r) (hoffset.lookup_eq_none.mpr (hnot (·.offset) hoffsets))
      have hassoc : d.rows ++ r :: rows = (d.rows ++ [r]) ++ rows := by simp
      rw [hassoc] at hlabels hoffsets ⊢
      have hlen : d.rows.length + 1 = (d.rows ++ [r]).length := by simp
      have hround : rebuildMaps d d.rows.length (r :: rows) =
          rebuildMaps { d with
            rows := d.rows ++ [r]
            labelMap := d.labelMap.insert r.label d.rows.length
            offsetMap := d.offsetMap.insert r.offset d.rows.length }
            (d.rows ++ [r]).length rows := by
        rw [rebuildMaps, hlen]
      rw [hround]
      exact ih hlabel' hoffset' hlabels hoffsets

/-- What is required of a file: it was written by a consistent index, with the
counter ahead. -/
structure FileOk (f : FlatFile V W) (filed : Nat → SparsePoint W) (handed : Nat)
    (enableSparse : Bool) : Prop where
  small : f.rows.length < 2 ^ 31
  labels : (f.rows.map (·.label)).Nodup
  offsets : (f.rows.map (·.offset)).Nodup
  fresh : ∀ r ∈ f.rows, r.offset < f.nextLogicalOffset
  behind : f.nextLogicalOffset ≤ handed
  sparse : enableSparse = true → ∃ sp, f.sparse = some sp ∧ Aligned f.rows sp filed

theorem maxOffset_lt {rows : List (VectorRow V)} {n : Nat}
    (h : ∀ r ∈ rows, r.offset < n) (hne : rows ≠ []) : maxOffset rows < n := by
  have hfold : ∀ (l : List Nat) (m : Nat), m < n → (∀ o ∈ l, o < n) → l.foldl max m < n := by
    intro l
    induction l with
    | nil => exact fun m hm _ => hm
    | cons o l ih =>
        intro m hm hl
        refine ih (max m o) (Nat.max_lt.mpr ⟨hm, hl o List.mem_cons_self⟩) ?_
        exact fun o' ho' => hl o' (List.mem_cons_of_mem _ ho')
  obtain ⟨r, hr⟩ := List.exists_mem_of_ne_nil rows hne
  refine hfold _ 0 (Nat.zero_lt_of_lt (h r hr)) ?_
  intro o ho
  obtain ⟨r, hr, rfl⟩ := List.mem_map.mp ho
  exact h r hr

/-- The buffer of a loaded file -/
theorem load_dense {f : FlatFile V W} {filed : Nat → SparsePoint W} {n : Nat} {b : Bool}
    (h : FileOk f filed n b) (s : FlatIndex V W) :
    (s.load f).dense.Consistent ∧ (s.load f).dense.rows = f.rows ∧
      (s.load f).dense.nextLogicalOffset = f.nextLogicalOffset := by
  have hcounter : repairCounter f.nextLogicalOffset f.rows = f.nextLogicalOffset := by
    unfold repairCounter
    refine if_neg ?_
    rintro ⟨hne, hle⟩
    exact absurd (maxOffset_lt h.fresh hne) (Nat.not_lt.mpr hle)
  obtain ⟨hrows, hlabel, hoffset, hnext⟩ :=
    rebuildMaps_ok (d := ⟨[], ∅, ∅, repairCounter f.nextLogicalOffset f.rows⟩) Files.nil Files.nil
      h.labels h.offsets
  have hnext' : (s.load f).dense.nextLogicalOffset = f.nextLogicalOffset := hnext.trans hcounter
  refine ⟨⟨?_, ?_, ?_⟩, hrows, hnext'⟩
  · show Files _ (s.load f).dense.rows _
    rw [show (s.load f).dense.rows = f.rows from hrows]
    exact hlabel
  · show Files _ (s.load f).dense.rows _
    rw [show (s.load f).dense.rows = f.rows from hrows]
    exact hoffset
  · intro r hr
    rw [show (s.load f).dense.rows = f.rows from hrows] at hr
    rw [hnext']
    exact h.fresh r hr

end FlatIndex

end OpenViking.Index
