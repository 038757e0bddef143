/-
# `OpenViking.Index.Bitmap` — sets of record offsets in two representations

`bitmap_holder/bitmap.cpp`.  A bitmap with few members is an ordered set; once
it has more than `kSetThreshold` it becomes a roaring bitmap.  Every operation
has a case for each pair of representations, and `elems_*` says that each of
them is the operation of the same name on the set of members.

The roaring library and `std::set` are finite sets here.
-/
import Mathlib.Data.Finset.Basic
import Mathlib.Data.Finset.Card
import Mathlib.Data.Finset.Range

namespace OpenViking.Index

/-- `Bitmap::kSetThreshold` -/
def kSetThreshold : Nat := 32

/-- Only one of the two representations is ever in use. -/
structure Bitmap where
  roaring : Finset Nat
  set : Finset Nat
  isRoaring : Bool
  roaring_eq_empty : isRoaring = false → roaring = ∅
  set_eq_empty : isRoaring = true → set = ∅

namespace Bitmap

def ofRoaring (r : Finset Nat) : Bitmap := ⟨r, ∅, true, nofun, fun _ => rfl⟩

def ofSet (s : Finset Nat) : Bitmap := ⟨∅, s, false, fun _ => rfl, nofun⟩

/-- `Bitmap()` -/
def empty : Bitmap := ofSet ∅

def isset (b : Bitmap) (id : Nat) : Bool :=
  if b.isRoaring then id ∈ b.roaring else id ∈ b.set

/-- The members. -/
def elems (b : Bitmap) : Finset Nat := if b.isRoaring then b.roaring else b.set

/-- What adding members one by one to an ordered set ends with: the size only
grows, so the threshold is crossed on the way iff it is crossed at the end. -/
def ofGrownSet (s : Finset Nat) : Bitmap := if kSetThreshold < s.card then ofRoaring s else ofSet s

def toRoaring (b : Bitmap) : Bitmap := ofRoaring (b.roaring ∪ b.set)

/-- `Set(id)` -/
def setBit (b : Bitmap) (id : Nat) : Bitmap :=
  if b.isRoaring then ofRoaring (insert id b.roaring) else ofGrownSet (insert id b.set)

/-- `Unset(id)` -/
def unset (b : Bitmap) (id : Nat) : Bitmap :=
  if b.isRoaring then ofRoaring (b.roaring.erase id) else ofSet (b.set.erase id)

/-- `SetRange(x, y)`: the library's ranges are half open. -/
def setRange (b : Bitmap) (x y : Nat) : Bitmap :=
  ofRoaring (b.toRoaring.roaring ∪ (Finset.range y).filter (x ≤ ·))

def setMany (b : Bitmap) (ids : List Nat) : Bitmap :=
  if ids = [] then b else ofRoaring (b.toRoaring.roaring ∪ ids.toFinset)

/-- `Union(other)` -/
def union (b other : Bitmap) : Bitmap :=
  if other.isRoaring then ofRoaring (b.toRoaring.roaring ∪ other.roaring)
  else if b.isRoaring then ofRoaring (b.roaring ∪ other.set)
  else ofGrownSet (b.set ∪ other.set)

/-- `FastUnion(bitmaps)`: the roaring ones first, lazily, then the others. -/
def fastUnion (b : Bitmap) : List Bitmap → Bitmap
  | [] => b
  | [other] => b.union other
  | others =>
      let lazy := (others.filter (·.isRoaring)).foldl
        (fun acc other => ofRoaring (acc.roaring ∪ other.roaring)) b.toRoaring
      (others.filter (fun other => !other.isRoaring)).foldl union lazy

/-- `Exclude(other)` -/
def exclude (b other : Bitmap) : Bitmap :=
  if b.isRoaring && other.isRoaring then ofRoaring (b.roaring \ other.roaring)
  else if !other.isRoaring then
    if b.isRoaring then ofRoaring (b.roaring \ other.set) else ofSet (b.set \ other.set)
  else ofSet (b.set.filter fun id => !other.isset id)

/-- `Intersect(other)`: a roaring bitmap met with a set becomes a set. -/
def intersect (b other : Bitmap) : Bitmap :=
  if b.isRoaring && other.isRoaring then ofRoaring (b.roaring ∩ other.roaring)
  else if b.isRoaring then ofSet (other.set.filter fun id => b.isset id)
  else ofSet (b.set.filter fun id => other.isset id)

/-- The overloads that take a pointer ignore a null one. -/
def unionPtr (b : Bitmap) : Option Bitmap → Bitmap
  | none => b
  | some other => b.union other

def excludePtr (b : Bitmap) : Option Bitmap → Bitmap
  | none => b
  | some other => b.exclude other

/-! ## Every operation is the one of its name on the members -/

variable (b other : Bitmap)

@[simp] theorem elems_ofRoaring (r : Finset Nat) : (ofRoaring r).elems = r := rfl

@[simp] theorem elems_ofSet (s : Finset Nat) : (ofSet s).elems = s := rfl

@[simp] theorem elems_empty : empty.elems = ∅ := rfl

@[simp] theorem elems_ofGrownSet (s : Finset Nat) : (ofGrownSet s).elems = s := by
  unfold ofGrownSet; split <;> rfl

theorem roaring_union_set : b.roaring ∪ b.set = b.elems := by
  unfold elems
  cases h : b.isRoaring with
  | true => simp [b.set_eq_empty h]
  | false => simp [b.roaring_eq_empty h]

@[simp] theorem roaring_toRoaring : b.toRoaring.roaring = b.elems := roaring_union_set b

@[simp] theorem elems_toRoaring : b.toRoaring.elems = b.elems := roaring_union_set b

@[simp] theorem isset_eq_true (id : Nat) : b.isset id = true ↔ id ∈ b.elems := by
  unfold isset elems
  split <;> simp

@[simp] theorem elems_setBit (id : Nat) : (b.setBit id).elems = insert id b.elems := by
  unfold setBit
  cases h : b.isRoaring with
  | true => simp [elems, h, ofRoaring]
  | false =>
      have hs : b.elems = b.set := by simp [elems, h]
      simp [hs]

@[simp] theorem elems_unset (id : Nat) : (b.unset id).elems = b.elems.erase id := by
  unfold unset
  cases h : b.isRoaring <;> simp [elems, h, ofRoaring, ofSet]

@[simp] theorem elems_setRange (x y : Nat) :
    (b.setRange x y).elems = b.elems ∪ (Finset.range y).filter (x ≤ ·) := by
  simp [setRange]

@[simp] theorem elems_setMany (ids : List Nat) :
    (b.setMany ids).elems = b.elems ∪ ids.toFinset := by
  unfold setMany
  split
  · next h => simp [h]
  · simp

@[simp] theorem elems_union : (b.union other).elems = b.elems ∪ other.elems := by
  unfold union
  cases ho : other.isRoaring with
  | true => simp [elems, ho, ofRoaring, toRoaring, roaring_union_set]
  | false =>
      cases hb : b.isRoaring with
      | true => simp [elems, ho, hb, ofRoaring]
      | false =>
          have hs : b.elems = b.set := by simp [elems, hb]
          have ho' : other.elems = other.set := by simp [elems, ho]
          simp [hs, ho']

@[simp] theorem elems_exclude : (b.exclude other).elems = b.elems \ other.elems := by
  unfold exclude
  cases hb : b.isRoaring <;> cases ho : other.isRoaring <;>
    simp [elems, hb, ho, ofRoaring, ofSet, isset]
  rw [Finset.filter_notMem_eq_sdiff]

@[simp] theorem elems_intersect : (b.intersect other).elems = b.elems ∩ other.elems := by
  unfold intersect
  cases hb : b.isRoaring <;> cases ho : other.isRoaring <;>
    simp [elems, hb, ho, ofRoaring, ofSet, isset, Finset.filter_mem_eq_inter, Finset.inter_comm]

theorem elems_foldl_union (bs : List Bitmap) (b : Bitmap) (id : Nat) :
    id ∈ (bs.foldl union b).elems ↔ id ∈ b.elems ∨ ∃ c ∈ bs, id ∈ c.elems := by
  induction bs generalizing b with
  | nil => simp
  | cons c cs ih => simp [ih, or_assoc]

theorem elems_foldl_lazyOr (bs : List Bitmap) (hbs : ∀ c ∈ bs, c.isRoaring = true) (b : Bitmap)
    (hb : b.isRoaring = true) (id : Nat) :
    id ∈ (bs.foldl (fun acc c => ofRoaring (acc.roaring ∪ c.roaring)) b).elems ↔
      id ∈ b.elems ∨ ∃ c ∈ bs, id ∈ c.elems := by
  induction bs generalizing b with
  | nil => simp
  | cons c cs ih =>
      have hc : c.elems = c.roaring := by simp [elems, hbs c (by simp)]
      have hb' : b.elems = b.roaring := by simp [elems, hb]
      rw [List.foldl_cons, ih (fun d hd => hbs d (by simp [hd])) _ rfl]
      simp [hc, hb', or_assoc]

theorem mem_fastUnion (bs : List Bitmap) (id : Nat) :
    id ∈ (b.fastUnion bs).elems ↔ id ∈ b.elems ∨ ∃ c ∈ bs, id ∈ c.elems := by
  unfold fastUnion
  split
  · simp
  · simp
  · rw [elems_foldl_union, elems_foldl_lazyOr _
      (fun c hc => by simpa using (List.mem_filter.mp hc).2)
      _ rfl, elems_toRoaring, or_assoc]
    refine or_congr_right ?_
    -- a member is roaring or it is not
    constructor
    · rintro (⟨c, hc, hid⟩ | ⟨c, hc, hid⟩) <;> exact ⟨c, (List.mem_filter.mp hc).1, hid⟩
    · rintro ⟨c, hc, hid⟩
      cases hr : c.isRoaring with
      | true => exact .inl ⟨c, List.mem_filter.mpr ⟨hc, hr⟩, hid⟩
      | false => exact .inr ⟨c, List.mem_filter.mpr ⟨hc, by simp [hr]⟩, hid⟩

end Bitmap

/-- A shared pointer to a bitmap; null stands for the empty set. -/
abbrev BitmapPtr : Type := Option Bitmap

/-- The set a pointer stands for. -/
def BitmapPtr.elems : BitmapPtr → Finset Nat
  | none => ∅
  | some b => b.elems

@[simp] theorem BitmapPtr.elems_none : BitmapPtr.elems none = ∅ := rfl

@[simp] theorem BitmapPtr.elems_some (b : Bitmap) : BitmapPtr.elems (some b) = b.elems := rfl

namespace Bitmap

@[simp] theorem elems_unionPtr (b : Bitmap) (p : BitmapPtr) :
    (b.unionPtr p).elems = b.elems ∪ p.elems := by
  cases p <;> simp [unionPtr]

@[simp] theorem elems_excludePtr (b : Bitmap) (p : BitmapPtr) :
    (b.excludePtr p).elems = b.elems \ p.elems := by
  cases p <;> simp [excludePtr]

end Bitmap

end OpenViking.Index
