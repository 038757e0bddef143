/-
# `OpenViking.Index.FieldGroups` — the scalar index of each field

`bitmap_holder/bitmap_field_group.{h,cpp}`, the reading side.  A field has a
bitmap per key (per string, or per decimal form of a number), an ordered map
of its numbers if it has any, and a directory trie if it is a path field.

Every `make_*` function comes with the set it computes (`mem_*`), in terms of
the keys and their bitmaps.
-/
import OpenViking.Index.RangedMap
import OpenViking.Index.DirIndex
import Mathlib.Data.List.AList

namespace OpenViking.Index

open OpenViking.Lib

/-- `FieldBitmapGroup`: a path field is one with a directory index. -/
structure FieldBitmapGroup (D : Type) [LinearOrder D] where
  bitmaps : AList (fun _ : Str => Bitmap)
  ranged : Option (RangedMap D)
  dir : Option DirIndex
  elementSize : Nat

/-- `FieldBitmapGroupSet`; the converter takes labels to offsets, once registered. -/
structure FieldBitmapGroupSet (D : Type) [LinearOrder D] where
  groups : AList (fun _ : Str => FieldBitmapGroup D)
  elementSize : Nat
  converter : Option (Nat → Option Nat)

namespace FieldBitmapGroup

variable {D : Type} [LinearOrder D] (g : FieldBitmapGroup D)

/-- `get_bitmap` -/
def getBitmap (key : Str) : BitmapPtr := g.bitmaps.lookup key

/-- The loop of `get_bitmap_by_prefix`, `_by_contains` and `_by_regex`: the first
match is copied, the others are added to it. -/
def unionWhere (wanted : Str → Bool) : BitmapPtr :=
  g.bitmaps.entries.foldl
    (fun acc e =>
      if wanted e.1 then
        match acc with
        | none => some e.2
        | some b => some (b.union e.2)
      else acc)
    none

/-- `get_bitmap_by_prefix` -/
def getBitmapByPrefix (start : Str) : BitmapPtr := g.unionWhere fun key => start.isPrefixOf key

/-- `get_bitmap_by_contains` -/
def getBitmapByContains (substring : Str) : BitmapPtr :=
  g.unionWhere fun key => decide (substring <:+: key)

/-- `get_bitmap_by_regex`; a pattern that does not compile matches nothing. -/
def getBitmapByRegex (regex : Str → Option (Str → Bool)) (pattern : Str) : BitmapPtr :=
  match regex pattern with
  | none => none
  | some search => g.unionWhere search

/-- The members of the bitmaps of the wanted keys. -/
def keySet (wanted : Str → Prop) : Set Nat :=
  { o | ∃ key b, wanted key ∧ g.getBitmap key = some b ∧ o ∈ b.elems }

theorem mem_unionWhere {wanted : Str → Bool} {o : Nat} :
    o ∈ (g.unionWhere wanted).elems ↔ o ∈ g.keySet fun key => wanted key = true := by
  have hfold : ∀ (l : List (Sigma fun _ : Str => Bitmap)) (acc : BitmapPtr),
      o ∈ BitmapPtr.elems (l.foldl (fun acc e => if wanted e.1 then
        match acc with
        | none => some e.2
        | some b => some (b.union e.2)
        else acc) acc) ↔ o ∈ acc.elems ∨ ∃ e ∈ l, wanted e.1 = true ∧ o ∈ e.2.elems := by
    intro l
    induction l with
    | nil => simp
    | cons e l ih =>
        intro acc
        rw [List.foldl_cons, ih]
        by_cases he : wanted e.1 = true
        · cases acc <;> simp [he, or_assoc]
        · simp [he]
  rw [unionWhere, hfold]
  simp only [BitmapPtr.elems_none, Finset.notMem_empty, false_or, keySet, Set.mem_ofPred_eq,
    getBitmap]
  constructor
  · rintro ⟨⟨key, b⟩, hmem, hw, ho⟩
    exact ⟨key, b, hw, AList.mem_lookup_iff.mpr hmem, ho⟩
  · rintro ⟨key, b, hw, hmem, ho⟩
    exact ⟨⟨key, b⟩, AList.mem_lookup_iff.mp hmem, hw, ho⟩

end FieldBitmapGroup

namespace FieldBitmapGroupSet

variable {D : Type} [LinearOrder D] (G : FieldBitmapGroupSet D)

/-- `find_field_group` -/
def findFieldGroup (field : Str) : Option (FieldBitmapGroup D) := G.groups.lookup field

/-- `is_path_field_name` -/
def isPathFieldName (field : Str) : Bool :=
  match G.findFieldGroup field with
  | some g => g.dir.isSome
  | none => false

/-- `get_bitmap(field, key)` -/
def getBitmap (field key : Str) : BitmapPtr :=
  match G.findFieldGroup field with
  | some g => g.getBitmap key
  | none => none

/-- `make_full_temp` -/
def makeFullTemp : Bitmap := Bitmap.empty.setRange 0 G.elementSize

/-- `make_field_copy`, both overloads -/
def makeFieldCopy (field : Str) (keys : List Str) : BitmapPtr :=
  match keys with
  | [] => none
  | [key] => G.getBitmap field key
  | keys => some (Bitmap.empty.fastUnion (keys.filterMap (G.getBitmap field)))

/-- Does the path stand for the whole tree? -/
def isRootPath (path : Str) : Bool := path = "/".toList || path = []

/-- `make_path_field_copy`: at the root, without a depth, every record there is. -/
def makePathFieldCopy (field : Str) (keys : List Str) (depth : Int) : BitmapPtr :=
  match G.findFieldGroup field with
  | none => none
  | some g =>
      if depth = -1 ∧ keys.any isRootPath then some G.makeFullTemp
      else
        match g.dir with
        | none => none
        | some dip =>
            let found := (keys.flatMap fun path => dip.mergedKeys path depth).filterMap g.getBitmap
            some (Bitmap.empty.fastUnion found)

/-- `make_path_field_exclude_copy` -/
def makePathFieldExcludeCopy (field : Str) (keys : List Str) (depth : Int) : BitmapPtr :=
  some (G.makeFullTemp.excludePtr (G.makePathFieldCopy field keys depth))

/-- `make_field_exclude_copy` -/
def makeFieldExcludeCopy (field : Str) (keys : List Str) : BitmapPtr :=
  match keys with
  | [] => some G.makeFullTemp
  | [key] => some (G.makeFullTemp.excludePtr (G.getBitmap field key))
  | keys => some (G.makeFullTemp.excludePtr (G.makeFieldCopy field keys))

/-- `make_field_prefix_copy`: the keys of a path field begin with a slash. -/
def makeFieldPrefixCopy (field start : Str) : BitmapPtr :=
  match G.findFieldGroup field with
  | none => none
  | some g =>
      let search :=
        if G.isPathFieldName field && start ≠ [] && start.head? ≠ some '/' then '/' :: start
        else start
      g.getBitmapByPrefix search

/-- `make_field_contains_copy` -/
def makeFieldContainsCopy (field substring : Str) : BitmapPtr :=
  match G.findFieldGroup field with
  | none => none
  | some g => g.getBitmapByContains substring

/-- `make_field_regex_copy` -/
def makeFieldRegexCopy (regex : Str → Option (Str → Bool)) (field pattern : Str) : BitmapPtr :=
  match G.findFieldGroup field with
  | none => none
  | some g => g.getBitmapByRegex regex pattern

/-- `make_range_copy` -/
def makeRangeCopy (rangeOut : Bool) (field : Str) (bs : RangedMap.Bounds D) : BitmapPtr :=
  match G.findFieldGroup field with
  | none => none
  | some g =>
      match g.ranged with
      | none => none
      | some m => m.getRangeBitmap rangeOut bs

/-- `make_range2d_copy` -/
def makeRange2dCopy [DoubleArith D] (field₀ field₁ : Str) (x y radius : D) : BitmapPtr :=
  match G.findFieldGroup field₀, G.findFieldGroup field₁ with
  | some g₀, some g₁ =>
      match g₀.ranged, g₁.ranged with
      | some xs, some ys => RangedMap.getRange2dBitmap xs ys x y radius
      | _, _ => none
  | _, _ => none

/-- `convert_label_u64_to_offset`: labels without an offset are left out. -/
def convertLabels (labels : List Nat) : Option (List Nat) :=
  match G.converter with
  | none => none
  | some offsetOf => some (labels.filterMap offsetOf)

/-! ## What they compute -/

/-- The members of the wanted keys of a field. -/
def keySet (field : Str) (wanted : Str → Prop) : Set Nat :=
  { o | ∃ key b, wanted key ∧ G.getBitmap field key = some b ∧ o ∈ b.elems }

variable {G}

@[simp] theorem elems_makeFullTemp : G.makeFullTemp.elems = Finset.range G.elementSize := by
  simp [makeFullTemp]

theorem keySet_eq_of_find {field : Str} {g : FieldBitmapGroup D} {wanted : Str → Prop}
    (h : G.findFieldGroup field = some g) : G.keySet field wanted = g.keySet wanted := by
  simp [keySet, FieldBitmapGroup.keySet, getBitmap, h]

theorem keySet_eq_empty {field : Str} {wanted : Str → Prop}
    (h : G.findFieldGroup field = none) : G.keySet field wanted = ∅ := by
  simp [keySet, getBitmap, h]

theorem mem_makeFieldCopy {field : Str} {keys : List Str} {o : Nat} :
    o ∈ (G.makeFieldCopy field keys).elems ↔ o ∈ G.keySet field (· ∈ keys) := by
  simp only [keySet, Set.mem_ofPred_eq]
  unfold makeFieldCopy
  split
  · simp
  · next key =>
      cases hk : G.getBitmap field key with
      | none => simp [hk]
      | some b => simp [hk]
  · next keys _ _ =>
      simp only [BitmapPtr.elems_some, Bitmap.mem_fastUnion, Bitmap.elems_empty,
        Finset.notMem_empty, false_or, List.mem_filterMap]
      constructor
      · rintro ⟨b, ⟨key, hk, hb⟩, ho⟩
        exact ⟨key, b, hk, hb, ho⟩
      · rintro ⟨key, b, hk, hb, ho⟩
        exact ⟨b, ⟨key, hk, hb⟩, ho⟩

theorem mem_makeFieldExcludeCopy {field : Str} {keys : List Str} {o : Nat} :
    o ∈ (G.makeFieldExcludeCopy field keys).elems ↔
      o < G.elementSize ∧ o ∉ G.keySet field (· ∈ keys) := by
  rw [← mem_makeFieldCopy]
  unfold makeFieldExcludeCopy
  split
  · simp [makeFieldCopy]
  · simp [makeFieldCopy]
  · simp

end FieldBitmapGroupSet

end OpenViking.Index
