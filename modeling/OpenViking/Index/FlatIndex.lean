/-
# `OpenViking.Index.FlatIndex` — the vector index with its sparse rows and its file

`BruteforceSearch` of `vector/common/bruteforce.h` once more, now with the holder
of the sparse rows beside the buffer (`sparse_row_index.cpp`, `sparse_dataset.h`)
and with `save` and `load`.

Row `i` of the holder belongs to row `i` of the buffer.  The holder also numbers
the terms it has seen: `term_index_` has the number of a term, `index_term_` lists
the terms.  A term here is its hash.
-/
import OpenViking.Index.Bruteforce

namespace OpenViking.Index

open OpenViking.Lib

/-! ## The sparse rows -/

/-- `SparseDatapoint`: numbers of terms with their values -/
abbrev SparsePoint (W : Type) : Type := List (Nat × W)

/-- `FloatValSparseDatapointLowLevel` -/
structure SparseInput (W : Type) where
  rawTerms : Option (List Nat)
  values : List W

/-- `SparseRowIndex` -/
structure SparseRowIndex (W : Type) where
  termIndex : AList (fun _ : Nat => Nat)
  indexTerm : List Nat
  rows : List (SparsePoint W)

namespace SparseRowIndex

variable {W : Type}

def initEmptyData : SparseRowIndex W := ⟨∅, [], []⟩

/-- The number of a term; a new term gets the next one. -/
def numberTerm (s : SparseRowIndex W) (term : Nat) : SparseRowIndex W :=
  match s.termIndex.lookup term with
  | some _ => s
  | none =>
      { s with
        termIndex := s.termIndex.insert term s.termIndex.keys.length
        indexTerm := s.indexTerm ++ [term] }

/-- The entries made so far, under their terms: `add_term_set` with the two vectors. -/
abbrev Entries (W : Type) : Type := List (Nat × Nat × W)

/-- A value is added to the entry of its term, if there is one. -/
def addEntry [Add W] (entries : Entries W) (term index : Nat) (value : W) : Entries W :=
  if term ∈ entries.map Prod.fst then
    entries.map fun e => if e.1 = term then (e.1, e.2.1, e.2.2 + value) else e
  else entries ++ [(term, index, value)]

/-- One round of the loop in `index_by_terms` -/
def indexTermValue [Add W] (acc : SparseRowIndex W × Entries W) (e : Nat × W) :
    SparseRowIndex W × Entries W :=
  let s := acc.1.numberTerm e.1
  (s, addEntry acc.2 e.1 ((s.termIndex.lookup e.1).getD 0) e.2)

/-- `index_by_terms` on lists of equal length -/
def indexByTerms [Add W] (s : SparseRowIndex W) (input : List (Nat × W)) :
    SparseRowIndex W × SparsePoint W :=
  let acc := input.foldl indexTermValue (s, [])
  (acc.1, (acc.2.map Prod.snd).mergeSort fun a b => a.1 ≤ b.1)

/-- `make_sparse_point_by_low_level`; none is a negative return value. -/
def makeSparsePointByLowLevel [Add W] (s : SparseRowIndex W) (input : SparseInput W) :
    Option (SparseRowIndex W × SparsePoint W) :=
  match input.rawTerms with
  | none => none
  | some terms =>
      if terms.length ≠ input.values.length then none
      else some (s.indexByTerms (terms.zip input.values))

/-- The terms of a file are read into the holder as it is: none of them may be known. -/
def loadTerms (s : SparseRowIndex W) (number : Nat) : List Nat → Bool × SparseRowIndex W
  | [] => (true, s)
  | term :: terms =>
      if (s.termIndex.lookup term).isSome then (false, s)
      else loadTerms
        { s with
          termIndex := s.termIndex.insert term number
          indexTerm := s.indexTerm ++ [term] } (number + 1) terms

/-- The rows of a file, up to one with more entries than there are terms. -/
def loadRows (cols : Nat) (rows : List (SparsePoint W)) : List (SparsePoint W) :=
  rows.takeWhile fun row => row.length ≤ cols

/-- `load_data`: the rows are thrown away first, the terms are not. -/
def loadData (s file : SparseRowIndex W) : SparseRowIndex W :=
  match loadTerms { s with rows := [] } 0 file.indexTerm with
  | (true, s') => { s' with rows := loadRows file.indexTerm.length file.rows }
  | (false, s') => s'

end SparseRowIndex

/-! ## The index -/

inductive FlatError where
  | conversionFailed
  | inconsistency
  | updateOutOfBounds
  | rowOutOfBounds
  | noFile
  deriving DecidableEq

/-- The buffer with its maps, and the holder if the index has one. -/
structure FlatIndex (V W : Type) where
  dense : BruteforceSearch V
  sparse : Option (SparseRowIndex W)

/-- What `save` writes -/
structure FlatFile (V W : Type) where
  rows : List (VectorRow V)
  nextLogicalOffset : Nat
  sparse : Option (SparseRowIndex W)

namespace FlatIndex

variable {V W : Type}

/-- The constructor; `enableSparse` is the flag of the meta data. -/
def new (enableSparse : Bool) : FlatIndex V W :=
  ⟨.empty, if enableSparse then some .initEmptyData else none⟩

/-- The conversion at the start of `add_point` -/
def convert [Add W] (s : SparseRowIndex W) :
    Option (SparseInput W) → Option (SparseRowIndex W × Option (SparsePoint W))
  | none => some (s, none)
  | some input => (s.makeSparsePointByLowLevel input).map fun r => (r.1, some r.2)

/-- `add_point` once the sparse data is converted -/
def addConverted (d : BruteforceSearch V) (sp : SparseRowIndex W) (point : Option (SparsePoint W))
    (label : Nat) (vector : V) : Except FlatError Unit × FlatIndex V W :=
  match d.labelMap.lookup label, point with
  | some _, none => (.ok (), ⟨d.addPoint label vector, some sp⟩)
  | some index, some p =>
      if index < sp.rows.length then
        (.ok (), ⟨d.addPoint label vector, some { sp with rows := sp.rows.set index p }⟩)
      else (.error .updateOutOfBounds, ⟨d, some sp⟩)
  | none, point =>
      if d.rows.length ≠ sp.rows.length then (.error .inconsistency, ⟨d, some sp⟩)
      else (.ok (), ⟨d.addPoint label vector, some { sp with rows := sp.rows ++ [point.getD []] }⟩)

/-- `add_point` -/
def addPoint [Add W] (s : FlatIndex V W) (label : Nat) (vector : V)
    (sparseData : Option (SparseInput W)) : Except FlatError Unit × FlatIndex V W :=
  match s.sparse with
  | none => (.ok (), ⟨s.dense.addPoint label vector, none⟩)
  | some sp =>
      match convert sp sparseData with
      | none => (.error .conversionFailed, s)
      | some (sp', point) => addConverted s.dense sp' point label vector

/-- The buffer and the maps when the copy of the last sparse row has failed: patched,
and not yet shorter. -/
def patchedOnly (d : BruteforceSearch V) (index : Nat) (removed last : VectorRow V) :
    BruteforceSearch V :=
  { d with
    rows := d.rows.set index last
    labelMap := swapRemoveKey d.labelMap d.rows (·.label) index removed last
    offsetMap := swapRemoveKey d.offsetMap d.rows (·.offset) index removed last }

/-- `remove_point` of a label that is at `index` -/
def removeAt (s : FlatIndex V W) (sp : SparseRowIndex W) (label index : Nat) :
    Except FlatError Unit × FlatIndex V W :=
  match s.dense.rows[index]?, s.dense.rows.getLast? with
  | some removed, some last =>
      if index ≠ s.dense.rows.length - 1 then
        match sp.rows[s.dense.rows.length - 1]? with
        | none => (.error .rowOutOfBounds, ⟨patchedOnly s.dense index removed last, some sp⟩)
        | some lastRow =>
            (.ok (), ⟨s.dense.removePoint label,
              some { sp with rows := (sp.rows.set index lastRow).dropLast }⟩)
      else (.ok (), ⟨s.dense.removePoint label, some { sp with rows := sp.rows.dropLast }⟩)
  | _, _ => (.ok (), s)

/-- `remove_point` -/
def removePoint (s : FlatIndex V W) (label : Nat) : Except FlatError Unit × FlatIndex V W :=
  match s.dense.labelMap.lookup label, s.sparse with
  | none, _ => (.ok (), s)
  | some _, none => (.ok (), ⟨s.dense.removePoint label, none⟩)
  | some index, some sp => s.removeAt sp label index

/-- `save_data` writes nothing when the rows cannot be counted in 32 bits. -/
def saveSparse (sp : SparseRowIndex W) (old : Option (SparseRowIndex W)) :
    Option (SparseRowIndex W) :=
  if sp.rows.length > 2 ^ 32 - 1 then old else some sp

/-- `save`, over what is in the directory -/
def save (s : FlatIndex V W) (old : Option (FlatFile V W)) : FlatFile V W where
  rows := s.dense.rows
  nextLogicalOffset := s.dense.nextLogicalOffset
  sparse :=
    match s.sparse with
    | none => old.bind (·.sparse)
    | some sp => saveSparse sp (old.bind (·.sparse))

/-- `rebuild_maps`, from row `i` on -/
def rebuildMaps (d : BruteforceSearch V) (i : Nat) : List (VectorRow V) → BruteforceSearch V
  | [] => d
  | r :: rows =>
      rebuildMaps
        { d with
          rows := d.rows ++ [r]
          labelMap := d.labelMap.insert r.label i
          offsetMap := d.offsetMap.insert r.offset i } (i + 1) rows

def maxOffset (rows : List (VectorRow V)) : Nat := (rows.map (·.offset)).foldl max 0

/-- The counter after `rebuild_maps`; `max_offset + 1` is a `uint32_t`. -/
def repairCounter (next : Nat) (rows : List (VectorRow V)) : Nat :=
  if rows ≠ [] ∧ next ≤ maxOffset rows then (maxOffset rows + 1) % 2 ^ 32 else next

/-- `load` of the file in the directory -/
def load (s : FlatIndex V W) (file : FlatFile V W) : FlatIndex V W where
  dense := rebuildMaps ⟨[], ∅, ∅, repairCounter file.nextLogicalOffset file.rows⟩ 0 file.rows
  sparse :=
    match s.sparse, file.sparse with
    | none, _ => none
    | some sp, none => some sp
    | some sp, some f => some (sp.loadData f)

end FlatIndex

end OpenViking.Index
