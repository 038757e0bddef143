/-
# `OpenViking.Index.ScalarIndex` — writing records to the index

`fields_dict.h`, the writing side of `bitmap_holder/bitmap_field_group.h`,
`scalar_index.cpp`, and `add_data` and `delete_data` of `index_manager_impl.cpp`.

A record arrives as a JSON object and is flattened to strings: a number to its
decimal form, a list to its elements joined by `;`.  A string with a `;` in it
is split again when it is indexed and when it is taken out.
-/
import OpenViking.Index.Manager
import OpenViking.Index.RangedUpdate

namespace OpenViking.Index

open OpenViking.Lib

/-! ## Flattening a record -/

/-- `FieldsDict` -/
structure FieldsDict (D : Type) where
  strs : AList (fun _ : Str => Str)
  dbls : AList (fun _ : Str => D)

section

variable {D : Type}

/-- One element of a list; anything but integers and strings leaves no text. -/
def elementText : Json D → Str
  | .int n => if isInt64 n then decimal n else []
  | .str s => cString s
  | _ => []

/-- The elements with `;` in between -/
def joinTexts (texts : List Str) : Str := [';'].intercalate texts

/-- What a value puts into `str_kv_map_` -/
def valueText : Json D → Option Str
  | .int n => if isInt64 n then some (decimal n) else none
  | .str s => some (cString s)
  | .bool b => some (if b then ['1'] else ['0'])
  | .arr items => some (joinTexts (items.map elementText))
  | _ => none

/-- What a value puts into `dbl_kv_map_` -/
def valueDouble [LinearOrder D] [DoubleArith D] : Json D → Option D
  | .int n => if isInt64 n then some (DoubleArith.ofInt n) else none
  | .double x => some x
  | _ => none

namespace FieldsDict

def empty : FieldsDict D := ⟨∅, ∅⟩

/-- One member of the document -/
def addMember [LinearOrder D] [DoubleArith D] (d : FieldsDict D) : Member D → FieldsDict D
  | .mk name value =>
      let key := cString name
      { strs := match valueText value with
          | some s => d.strs.insert key s
          | none => d.strs
        dbls := match valueDouble value with
          | some x => d.dbls.insert key x
          | none => d.dbls }

/-- `parse_from_json` of an object -/
def parseFromJson [LinearOrder D] [DoubleArith D] (doc : List (Member D)) : FieldsDict D :=
  doc.foldl addMember empty

end FieldsDict

end

/-! ## One field -/

/-- `split(keys, str, ";")`: empty pieces are left out. -/
def splitKeys (s : Str) : List Str := (s.splitOn ';').filter (· ≠ [])

/-- The keys a string is indexed under -/
def keysOf (s : Str) : List Str := if ';' ∈ s then splitKeys s else [s]

namespace FieldBitmapGroup

variable {D : Type} [LinearOrder D] (g : FieldBitmapGroup D)

/-- `normalize_path_key`, for a path field -/
def normKey (key : Str) : Str :=
  if g.dir.isSome && key ≠ [] && key.head? ≠ some '/' then '/' :: key else key

/-- `get_editable_bitmap` -/
def editBitmap (key : Str) : Bitmap := (g.bitmaps.lookup key).getD Bitmap.empty

/-- One key of `add_field_data`: a new key of a path field is added to the trie. -/
def addKey (offset : Nat) (key : Str) : FieldBitmapGroup D :=
  let key := g.normKey key
  { g with
    bitmaps := g.bitmaps.insert key ((g.editBitmap key).setBit offset)
    dir := if (g.bitmaps.lookup key).isNone then g.dir.map (·.addKey key) else g.dir }

/-- `add_field_data(field_str, offset)` -/
def addStr (s : Str) (offset : Nat) : FieldBitmapGroup D :=
  let g' := (keysOf s).foldl (fun g key => g.addKey offset key) g
  { g' with elementSize := max (offset + 1) g'.elementSize }

/-- `add_field_data(field_dbl, offset)` -/
def addDouble (x : D) (offset : Nat) : FieldBitmapGroup D :=
  let (ok, m) := (g.ranged.getD RangedMap.empty).addOffsetAndScore offset x
  { g with
    ranged := some m
    elementSize := if ok then max (offset + 1) g.elementSize else g.elementSize }

/-- One key of `delete_field_data`; a key that is not there gets a bitmap, but
is not added to the trie. -/
def deleteKey (offset : Nat) (key : Str) : FieldBitmapGroup D :=
  let key := g.normKey key
  { g with bitmaps := g.bitmaps.insert key ((g.editBitmap key).unset offset) }

/-- `delete_field_data(field_str, offset)` -/
def deleteStr (s : Str) (offset : Nat) : FieldBitmapGroup D :=
  if g.elementSize ≤ offset then g
  else (keysOf s).foldl (fun g key => g.deleteKey offset key) g

/-- `delete_field_data(field_dbl, offset)` -/
def deleteDouble (offset : Nat) : FieldBitmapGroup D :=
  if g.elementSize ≤ offset then g
  else { g with ranged := some ((g.ranged.getD RangedMap.empty).deleteOffset offset).2 }

end FieldBitmapGroup

/-! ## All fields -/

namespace FieldBitmapGroupSet

variable {D : Type} [LinearOrder D] (G : FieldBitmapGroupSet D)

/-- Change the group of a field, if there is one. -/
def modifyGroup (field : Str) (f : FieldBitmapGroup D → FieldBitmapGroup D) :
    FieldBitmapGroupSet D :=
  match G.findFieldGroup field with
  | none => G
  | some g => { G with groups := G.groups.insert field (f g) }

/-- `element_size_ = max(element_size_, offset + 1)` -/
def grow (offset : Nat) : FieldBitmapGroupSet D :=
  { G with elementSize := max G.elementSize (offset + 1) }

/-- `add_field_data(str_kv_map, offset)`.  The fields of a map are different, so
the order in which they are visited does not matter. -/
def addStrs (kv : AList (fun _ : Str => Str)) (offset : Nat) : FieldBitmapGroupSet D :=
  (kv.entries.foldl (fun G e => G.modifyGroup e.1 (·.addStr e.2 offset)) G).grow offset

/-- `add_field_data(double_kv_map, offset)` -/
def addDoubles (kv : AList (fun _ : Str => D)) (offset : Nat) : FieldBitmapGroupSet D :=
  (kv.entries.foldl (fun G e => G.modifyGroup e.1 (·.addDouble e.2 offset)) G).grow offset

/-- `delete_field_data(str_kv_map, offset)` -/
def deleteStrs (kv : AList (fun _ : Str => Str)) (offset : Nat) : FieldBitmapGroupSet D :=
  if G.elementSize ≤ offset then G
  else kv.entries.foldl (fun G e => G.modifyGroup e.1 (·.deleteStr e.2 offset)) G

/-- `delete_field_data(double_kv_map, offset)` -/
def deleteDoubles (kv : AList (fun _ : Str => D)) (offset : Nat) : FieldBitmapGroupSet D :=
  if G.elementSize ≤ offset then G
  else kv.entries.foldl (fun G e => G.modifyGroup e.1 (·.deleteDouble offset)) G

/-- `ScalarIndex::delete_row_data`, and the first half of `add_row_data`; a map
without entries is not visited. -/
def deleteRowData (offset : Nat) (old : FieldsDict D) : FieldBitmapGroupSet D :=
  let G₁ := if old.strs.entries.isEmpty then G else G.deleteStrs old.strs offset
  if old.dbls.entries.isEmpty then G₁ else G₁.deleteDoubles old.dbls offset

/-- `ScalarIndex::add_row_data` -/
def addRowData (offset : Nat) (fields old : FieldsDict D) : FieldBitmapGroupSet D :=
  let G₁ := G.deleteRowData offset old
  let G₂ := if fields.strs.entries.isEmpty then G₁ else G₁.addStrs fields.strs offset
  if fields.dbls.entries.isEmpty then G₂ else G₂.addDoubles fields.dbls offset

end FieldBitmapGroupSet

/-! ## A new index -/

/-- The field types of the scalar index meta -/
inductive FieldType
  | int64
  | float32
  | string
  | bool
  | listString
  | listInt64
  | path
  deriving DecidableEq, Repr

/-- An empty group of the type; numeric fields have a ranged map, paths a trie. -/
def FieldType.newGroup {D : Type} [LinearOrder D] (ty : FieldType) : FieldBitmapGroup D where
  bitmaps := ∅
  ranged := if ty = .int64 ∨ ty = .float32 then some RangedMap.empty else none
  dir := if ty = .path then some DirIndex.empty else none
  elementSize := 0

/-- `ScalarIndex::ScalarIndex(meta)` -/
def newScalarIndex {D : Type} [LinearOrder D] (schema : AList (fun _ : Str => FieldType)) :
    FieldBitmapGroupSet D where
  groups := ⟨schema.entries.map fun e => ⟨e.1, e.2.newGroup⟩, by
    have h := schema.nodupKeys
    rw [List.NodupKeys, List.keys] at h ⊢
    rwa [List.map_map]⟩
  elementSize := 0
  converter := none

/-! ## The manager -/

/-- `AddDataRequest`; no fields are an empty string. -/
structure AddDataRequest (D V : Type) where
  label : Nat
  vector : V
  fields : List (Member D)
  oldFields : List (Member D)

/-- `DeleteDataRequest` -/
structure DeleteDataRequest (D : Type) where
  label : Nat
  oldFields : List (Member D)

namespace IndexManager

/-- `init_from_json`: the fields and their types are what is left of the meta. -/
def new {D : Type} (V : Type) [LinearOrder D] (schema : AList (fun _ : Str => FieldType)) :
    IndexManager D V where
  vectors := .empty
  scalar := { newScalarIndex schema with
    converter := some (BruteforceSearch.empty (V := V)).getOffsetByLabel }
  layoutOffsets := []
  layoutRowsByOffset := []
  layoutInverseBase := 0
  layoutInverseReady := false
  inverse_ok := fun _ _ h => nomatch h
  tokenCache := []
  nextFilterToken := 1

variable {D V : Type} [LinearOrder D] [DoubleArith D] (M : IndexManager D V)

/-- `clear_filter_layout_` and `clear_filter_token_cache_` -/
def clearFilters : IndexManager D V :=
  { M.withLayout [] with tokenCache := [] }

/-- The label converter of the scalar index asks the vector index of the moment. -/
def withIndexes (vectors : BruteforceSearch V) (scalar : FieldBitmapGroupSet D) :
    IndexManager D V :=
  { M with vectors, scalar := { scalar with converter := some vectors.getOffsetByLabel } }

/-- One request of `add_data`: is there an update, and the index after it. -/
def addOne (req : AddDataRequest D V) : Bool × IndexManager D V :=
  let vectors := M.vectors.addPoint req.label req.vector
  match vectors.getOffsetByLabel req.label with
  | none => (false, M.withIndexes vectors M.scalar)
  | some offset =>
      (true, M.withIndexes vectors
        (M.scalar.addRowData offset (FieldsDict.parseFromJson req.fields)
          (FieldsDict.parseFromJson req.oldFields)))

/-- One request of `delete_data` -/
def deleteOne (req : DeleteDataRequest D) : Bool × IndexManager D V :=
  match M.vectors.getOffsetByLabel req.label with
  | none => (false, M)
  | some offset =>
      (true, M.withIndexes (M.vectors.removePoint req.label)
        (M.scalar.deleteRowData offset (FieldsDict.parseFromJson req.oldFields)))

/-- The loop of either call -/
def applyAll {R : Type} (one : IndexManager D V → R → Bool × IndexManager D V) (reqs : List R) :
    IndexManager D V :=
  let (updated, M') := reqs.foldl (fun st req => ((one st.2 req).1 || st.1, (one st.2 req).2))
    (false, M)
  if updated then M'.clearFilters else M'

/-- `IndexManagerImpl::add_data` -/
def addData (reqs : List (AddDataRequest D V)) : IndexManager D V := M.applyAll addOne reqs

/-- `IndexManagerImpl::delete_data` -/
def deleteData (reqs : List (DeleteDataRequest D)) : IndexManager D V := M.applyAll deleteOne reqs

end IndexManager

end OpenViking.Index
