/-
# `OpenViking.Index.Sorter` — sorting and counting the filtered records

`filter/sort_ops.cpp` and the top-k loops of `bitmap_holder/ranged_map.cpp`.
A sorter gets the bitmap of the filter, or null, and answers with offsets and
scores; a counter answers with a table of counts.

What the standard library sorts and pops is a parameter with its law
(`Algorithms`): ties come in any order.  Where the source throws, or reads past
the end of the slots, the answer is a `Fault`.

An answer under a bitmap stays inside it: `SorterOpBase.within` says so for the
offsets and for the counts.
-/
import OpenViking.Index.FilterParser
import OpenViking.Lib.Ranking
import Mathlib.Data.Finset.Sort
import Mathlib.Data.List.Sort

namespace OpenViking.Index

open OpenViking.Lib

/-- An exception, or memory that is not there. -/
inductive Fault
  /-- `reserve` of a negative number of items -/
  | lengthError
  /-- the slot after the last one -/
  | outOfRange
  /-- memory in which a value that is no object would have its members -/
  | notAnObject
  deriving DecidableEq, Repr

/-- `std::sort` and `std::priority_queue` -/
structure Algorithms where
  sort : (Nat → Nat → Bool) → List Nat → List Nat
  sort_perm : ∀ less l, (sort less l).Perm l
  /-- the first so many that are popped -/
  pop : (Nat → Nat → Bool) → List Nat → Nat → List Nat
  pop_subset : ∀ less l k, ∀ o ∈ pop less l k, o ∈ l

/-- `RecallResult`: offsets with their scores; a score may be `NaN`. -/
structure RecallResult (D : Type) where
  offsets : List Nat
  scores : List (Option D)
  deriving DecidableEq, Repr

section

variable {D : Type} [LinearOrder D] [DoubleArith D]

/-! ## Numbers that may be `NaN` -/

/-- `x > y`; with `NaN` it is false. -/
def exceeds (x y : Option D) : Bool :=
  match x, y with
  | some x, some y => decide (y < x)
  | _, _ => false

/-- `x != y`; with `NaN` it is true. -/
def differs (x y : Option D) : Bool :=
  match x, y with
  | some x, some y => decide (x ≠ y)
  | _, _ => true

/-! ## The loops over the slots -/

namespace RangedMap

variable (m : RangedMap D)

/-- `get_score_by_offset`: `NaN` for an offset whose value is gone or was never
set, a constant past the end of the table. -/
def getScoreByOffset (offset : Nat) : Option D :=
  m.offsetToValue.getD offset (some (DoubleArith.ofInt (-99999999)))

/-- `get_topk_result_with_slot_data` -/
def getTopkResult (topk : Int) (orderAsc : Bool) (filtered : Nat → Bool) :
    Except Fault (RecallResult D) :=
  if topk < 0 then .error .lengthError
  else
    let run := if orderAsc then m.entries else m.entries.reverse
    let kept := (run.filter fun e => !filtered e.2).take topk.toNat
    .ok ⟨kept.map Prod.snd, kept.map fun e => some e.1⟩

/-- `std::abs` -/
def absD (x : D) : D :=
  if x < DoubleArith.ofInt 0 then DoubleArith.sub (DoubleArith.ofInt 0) x else x

/-- The two pointers that walk away from the center, the nearer one first. -/
def walkOut (center : D) : Nat → List (D × Nat) → List (D × Nat) → List (D × Nat)
  | 0, _, _ => []
  | _, [], [] => []
  | n + 1, l :: ls, [] => l :: walkOut center n ls []
  | n + 1, [], r :: rs => r :: walkOut center n [] rs
  | n + 1, l :: ls, r :: rs =>
      if absD (DoubleArith.sub center l.1) ≤ absD (DoubleArith.sub center r.1) then
        l :: walkOut center n ls (r :: rs)
      else r :: walkOut center n (l :: ls) rs

/-- `get_topk_result_with_slot_data_center1d`.  If the greatest value is the
center itself, the search for the right border leaves the slots. -/
def getTopkResultCenter1d (topk : Int) (center : D) (filtered : Nat → Bool) :
    Except Fault (RecallResult D) :=
  match m.entries.getLast? with
  | none => .ok ⟨[], []⟩
  | some last =>
      if topk < 0 then .error .lengthError
      else if last.1 = center then .error .outOfRange
      else
        let kept := m.entries.filter fun e => !filtered e.2
        let at' := (kept.filter fun e => e.1 = center).take topk.toNat
        let left := (kept.filter fun e => e.1 < center).reverse
        let right := kept.filter fun e => center < e.1
        let all := at' ++ walkOut center (topk.toNat - at'.length) left right
        .ok ⟨all.map Prod.snd, all.map fun e => some e.1⟩

/-- The inner loop of `get_topk_result_with_slot_data_with_conditions`: the
offsets of one slot, after `cnt` others, the last of them with score `last`. -/
def gatherSlot (topk maxSize : Nat) (filtered : Nat → Bool) :
    List (D × Nat) → Nat → D → List Nat × D
  | [], _, last => ([], last)
  | e :: es, cnt, last =>
      if filtered e.2 then gatherSlot topk maxSize filtered es cnt last
      else if maxSize ≤ cnt + 1 then ([e.2], last)
      else if max topk 1 < cnt + 1 ∧ last ≠ e.1 then ([e.2], last)
      else
        let (rest, last') := gatherSlot topk maxSize filtered es (cnt + 1) e.1
        (e.2 :: rest, last')

/-- The outer loop; it visits the slots upwards, also in descending order. -/
def gather (topk maxSize : Nat) (asc : Bool) (filtered : Nat → Bool) :
    List (Slot D) → Nat → D → List Nat
  | [], _, _ => []
  | s :: ss, cnt, last =>
      if cnt < maxSize then
        let run := if asc then s.entries else s.entries.reverse
        let (found, last') := gatherSlot topk maxSize filtered run cnt last
        found ++ gather topk maxSize asc filtered ss (cnt + found.length) last'
      else []

/-- The comparison of `sort_with_conditions`. -/
def comesFirst : List (RangedMap D × Bool) → Nat → Nat → Bool
  | [], _, _ => false
  | (m, asc) :: rest, l, r =>
      if differs (m.getScoreByOffset l) (m.getScoreByOffset r) then
        exceeds (m.getScoreByOffset l) (m.getScoreByOffset r) ^^ asc
      else comesFirst rest l r

/-- `get_topk_result_with_slot_data_with_conditions` -/
def getTopkResultWithConditions (std : Algorithms) (topk : Int) (asc : Bool)
    (filtered : Nat → Bool) (conditions : List (RangedMap D × Bool)) :
    Except Fault (RecallResult D) :=
  if topk < 0 then .error .lengthError
  else
    let found := gather topk.toNat (2 * topk.toNat) asc filtered m.slots 0 (DoubleArith.ofInt 0)
    let offsets := (std.sort (comesFirst ((m, asc) :: conditions)) found).take topk.toNat
    .ok ⟨offsets, offsets.map m.getScoreByOffset⟩

end RangedMap

/-! ## The operators -/

/-- `SorterOpType`, with what the type needs -/
inductive SortType (D : Type)
  | single1d
  | multiSingle1d
  | center1d (center : D)

/-- `SorterOp` as loaded: an order for every field. -/
structure SorterOp (D : Type) where
  type : SortType D
  field : Str
  orderAsc : Bool
  others : List (Str × Bool)
  topk : Int

/-- `CounterOp` -/
structure CounterOp where
  fields : List Str
  gt : Int
  maxEntry : Int

/-- `SorterOpBase` -/
inductive SorterOpBase (D : Type)
  | sort (op : SorterOp D)
  | count (op : CounterOp)

/-- What a sorter answers with; the counts are its extra JSON. -/
structure SorterResult (D : Type) where
  recalled : RecallResult D
  counts : List (Str × Nat)

namespace FieldBitmapGroupSet

variable (G : FieldBitmapGroupSet D)

/-- `get_rangedmap_ptr` -/
def getRangedMap (field : Str) : Option (RangedMap D) :=
  (G.findFieldGroup field).bind (·.ranged)

end FieldBitmapGroupSet

namespace SorterOp

variable (std : Algorithms) (G : FieldBitmapGroupSet D) (op : SorterOp D)

/-- All fields with their orders. -/
def conditions : List (Str × Bool) := (op.field, op.orderAsc) :: op.others

/-- `_is_small_ratio_bitmap`; the quotient of two such numbers is never so close
to `0.005` that rounding would matter. -/
def isSmallRatio (validSize elementSize : Nat) : Bool :=
  validSize < 10000 || 200 * validSize < 1 + elementSize

/-- The ranged maps of the given fields; null if one of them has none. -/
def rangedMaps : List (Str × Bool) → Option (List (RangedMap D × Bool))
  | [] => some []
  | (field, asc) :: rest => do
      let m ← G.getRangedMap field
      let ms ← rangedMaps rest
      return (m, asc) :: ms

/-- `calc_topk_result(groups, filter)`; a field without numbers answers null. -/
def calcTopkFiltered (filtered : Nat → Bool) : Except Fault (Option (RecallResult D)) :=
  match op.type, G.getRangedMap op.field with
  | _, none => .ok none
  | .single1d, some m => some <$> m.getTopkResult op.topk op.orderAsc filtered
  | .multiSingle1d, some m =>
      match rangedMaps G op.others with
      | none => .ok none
      | some conditions =>
          some <$> m.getTopkResultWithConditions std op.topk op.orderAsc filtered conditions
  | .center1d center, some m => some <$> m.getTopkResultCenter1d op.topk center filtered

/-- The comparison of the queue in `_calc_topk_result_with_small_bitmap`: true
when the left one is popped later.  Differences up to `eps` count as none. -/
def poppedLater (eps : D) : List (RangedMap D × Bool) → Nat → Nat → Bool
  | [], _, _ => false
  | (m, asc) :: rest, l, r =>
      let diff := Option.map₂ DoubleArith.sub (m.getScoreByOffset l) (m.getScoreByOffset r)
      if exceeds diff (some eps) ||
          exceeds (some (DoubleArith.sub (DoubleArith.ofInt 0) eps)) diff then
        exceeds (m.getScoreByOffset r) (m.getScoreByOffset l) ^^ asc
      else poppedLater eps rest l r

/-- The same for `center1d`. -/
def fartherOut (center : D) (m : RangedMap D) (asc : Bool) (l r : Nat) : Bool :=
  let dl := (m.getScoreByOffset l).map fun v => RangedMap.absD (DoubleArith.sub v center)
  let dr := (m.getScoreByOffset r).map fun v => RangedMap.absD (DoubleArith.sub v center)
  if differs dl dr then exceeds dl dr ^^ asc
  else exceeds (m.getScoreByOffset l) (m.getScoreByOffset r)

/-- `_calc_topk_result_with_small_bitmap`, under a filter that is the bitmap
itself.  `topk` is read as unsigned. -/
def calcTopkSmall (eps : D) (valid : Bitmap) : Option (RecallResult D) :=
  match rangedMaps G op.conditions with
  | none => none
  | some [] => none
  | some ((first, asc) :: rest) =>
      let offsets := valid.elems.sort (· ≤ ·)
      let searchK := min (max 1 (op.topk % 2 ^ 32).toNat) offsets.length
      let later := match op.type with
        | .center1d center => fartherOut center first asc
        | _ => poppedLater eps ((first, asc) :: rest)
      let found := std.pop later offsets searchK
      some ⟨found, found.map first.getScoreByOffset⟩

/-- `calc_topk_result(groups, valid_bitmap)` -/
def calcTopkResult (eps : D) (valid : BitmapPtr) : Except Fault (Option (RecallResult D)) :=
  match valid with
  | none => op.calcTopkFiltered std G fun _ => false
  | some b =>
      if isSmallRatio b.elems.card G.elementSize then .ok (op.calcTopkSmall std G eps b)
      else op.calcTopkFiltered std G fun o => !b.isset o

end SorterOp

namespace CounterOp

/-- A number of the source's `int` -/
def toInt32 (n : Int) : Int := (n + 2 ^ 31) % 2 ^ 32 - 2 ^ 31

variable (G : FieldBitmapGroupSet D)

/-- `count_field_enums` of the first field: a count for every key, and the
bitmap it was counted in.  A numeric field adds a count under its own name. -/
def firstEnums (name : Str) (g : FieldBitmapGroup D) (valid : BitmapPtr) :
    AList (fun _ : Str => Nat) × List (Str × Bitmap) :=
  let bitmaps : List (Str × Bitmap) := g.bitmaps.entries.map fun e =>
    match valid with
    | some v => (e.1, e.2.intersect v)
    | none => (e.1, e.2)
  let counts : AList (fun _ : Str => Nat) :=
    bitmaps.foldl (fun acc e => acc.insert e.1 e.2.elems.card) ∅
  let counts := match g.ranged, valid with
    | some _, some v => counts.insert name v.elems.card
    | some m, none => counts.insert name m.entries.length
    | none, _ => counts
  (counts, bitmaps)

/-- `count_field_enums` of the second field, within the bitmaps of the first. -/
def jointEnums (g : FieldBitmapGroup D) (within : List (Str × Bitmap)) :
    AList (fun _ : Str => Nat) :=
  within.foldl (fun acc pkv =>
    let acc := g.bitmaps.entries.foldl (fun acc e =>
      let n := (e.2.intersect pkv.2).elems.card
      if 0 < n then acc.insert (pkv.1 ++ ',' :: e.1) n else acc) acc
    match g.ranged with
    | some _ => acc.insert pkv.1 pkv.2.elems.card
    | none => acc) ∅

/-- `FieldBitmapGroupSet::count_field_enums`; a code other than 0 is `none`. -/
def countFieldEnums (fields : List Str) (valid : BitmapPtr) :
    Option (AList (fun _ : Str => Nat)) :=
  match fields with
  | [field] => (G.findFieldGroup field).map fun g => (firstEnums field g valid).1
  | [field₀, field₁] => do
      let g₀ ← G.findFieldGroup field₀
      let g₁ ← G.findFieldGroup field₁
      return jointEnums g₁ (firstEnums field₀ g₀ valid).2
  | _ => none

/-- Keys in the order of `std::map`. -/
def sortedCounts (counts : AList (fun _ : Str => Nat)) : List (Str × Nat) :=
  (counts.entries.map fun e => (e.1, e.2)).insertionSort fun a b => a.1 ≤ b.1

def totalCount (n : Nat) : List (Str × Nat) := [("__total_count__".toList, n)]

/-- `CounterOp::_calc_topk_result` -/
def calcTopkResult (op : CounterOp) (valid : BitmapPtr) : Option (SorterResult D) :=
  match op.fields with
  | [] =>
      let total := match valid with
        | none => G.elementSize
        | some v => v.elems.card
      some ⟨⟨[], []⟩, totalCount total⟩
  | fields =>
      (countFieldEnums G fields valid).map fun counts =>
        let wanted := (sortedCounts counts).filter fun e => op.gt < toInt32 e.2
        ⟨⟨[], []⟩, if 0 < op.maxEntry then wanted.take op.maxEntry.toNat else wanted⟩

end CounterOp

/-- `calc_topk_result` of either kind -/
def SorterOpBase.calcTopkResult (std : Algorithms) (eps : D) (G : FieldBitmapGroupSet D)
    (valid : BitmapPtr) : SorterOpBase D → Except Fault (Option (SorterResult D))
  | .sort op => (op.calcTopkResult std G eps valid).map (·.map fun r => ⟨r, []⟩)
  | .count op => .ok (op.calcTopkResult G valid)

/-! ## Loading a sorter -/

/-- The strings of an array that has nothing else in it. -/
def onlyStrings : List (Json D) → Option (List Str)
  | [] => some []
  | .str s :: rest => (cString s :: ·) <$> onlyStrings rest
  | _ :: _ => none

/-- `load_json_doc_load_fields` -/
def loadSortFields (doc : List (Member D)) : Except Int (Str × List Str) :=
  match findMember "field".toList doc with
  | none => .error (-104)
  | some (.str s) => .ok (cString s, [])
  | some (.arr items) =>
      match onlyStrings items with
      | none => .error (-101)
      | some [] => .error (-102)
      | some (field :: others) => .ok (field, others)
  | some _ => .error (-103)

/-- `asc` or `desc` -/
def orderOf (s : Str) : Option Bool :=
  if s = "desc".toList then some false else if s = "asc".toList then some true else none

/-- `load_json_doc_load_order_ascs` -/
def loadOrders (doc : List (Member D)) : Except Int (List Bool) :=
  match findMember "order".toList doc with
  | none => .ok []
  | some (.str s) =>
      match orderOf (cString s) with
      | some asc => .ok [asc]
      | none => .error (-201)
  | some (.arr items) =>
      items.mapM fun
        | .str s =>
            match orderOf (cString s) with
            | some asc => .ok asc
            | none => .error (-203)
        | _ => .error (-202)
  | some _ => .error (-204)

/-- `load_json_doc_load_centers`: only numbers written as doubles count. -/
def loadCenters (doc : List (Member D)) : Except Int (List D) :=
  match findMember "center".toList doc with
  | none => .ok []
  | some (.double x) => .ok [x]
  | some (.arr items) =>
      items.mapM fun
        | .double x => .ok x
        | _ => .error (-301)
  | some _ => .error (-302)

/-- `load_json_doc_load_topk` -/
def loadTopk (doc : List (Member D)) : Except Int Int :=
  match findMember "topk".toList doc with
  | none => .ok 0
  | some (.int n) => if -2 ^ 31 ≤ n && n < 2 ^ 31 then .ok n else .error (-401)
  | some _ => .error (-401)

/-- `load_json_doc_load_type`: is it `center1d`? -/
def loadIsCenter1d (doc : List (Member D)) : Except Int Bool :=
  match findMember "type".toList doc with
  | none => .ok false
  | some (.str s) => if cString s = "center1d".toList then .ok true else .error (-502)
  | some _ => .error (-501)

/-- `SorterOp::load_json_doc` with `load_json_doc_validate` -/
def loadSorter (doc : List (Member D)) : Except Int (SorterOp D) := do
  let (field, others) ← loadSortFields doc
  let orders ← loadOrders doc
  let centers ← loadCenters doc
  let topk ← loadTopk doc
  if ← loadIsCenter1d doc then
    if others ≠ [] then throw (-601)
    match orders with
    | [] | [true] => pure ()
    | [false] => throw (-603)
    | _ => throw (-602)
    match centers with
    | [center] => return ⟨.center1d center, field, true, [], topk⟩
    | _ => throw (-604)
  else
    match others, orders with
    | [], [] => return ⟨.single1d, field, false, [], topk⟩
    | [], [asc] => return ⟨.single1d, field, asc, [], topk⟩
    | [], _ => throw (-610)
    | others, [] => return ⟨.multiSingle1d, field, false, others.map (·, false), topk⟩
    | others, [asc] => return ⟨.multiSingle1d, field, asc, others.map (·, asc), topk⟩
    | others, asc :: ascs =>
        if ascs.length = others.length then
          return ⟨.multiSingle1d, field, asc, others.zip ascs, topk⟩
        else throw (-611)

/-- `get_json_int_value`; `trunc` is the conversion of a double. -/
def getJsonIntValue (trunc : D → Int) : Json D → Except Int Int
  | .double x => .ok (trunc x)
  | .int n => if isInt64 n then .ok n else .error (-1)
  | _ => .error (-1)

/-- An optional number of `CounterOp::load_json_doc` -/
def loadCountNumber (trunc : D → Int) (name : Str) (default : Int) (doc : List (Member D)) :
    Except Int Int :=
  match findMember name doc with
  | none => .ok default
  | some value => CounterOp.toInt32 <$> getJsonIntValue trunc value

/-- `CounterOp::load_json_doc` -/
def loadCounter (trunc : D → Int) (doc : List (Member D)) : Except Int CounterOp := do
  let fields ← match findMember "field".toList doc with
    | none => pure []
    | some (.str s) => pure [cString s]
    | some (.arr items) =>
        match stringItems items with
        | [] => throw (-2)
        | fields => pure fields
    | some _ => throw (-3)
  let gt ← loadCountNumber trunc "gt".toList (-1) doc
  let maxEntry ← loadCountNumber trunc "max_entry".toList 10000 doc
  return ⟨fields, gt, maxEntry⟩

/-- What reading a document leaves to the platform: the conversion of a double, the
low half of its bits, and what is found in place of members when a value is taken
for an object that is none. -/
structure JsonReading (D : Type) where
  trunc : D → Int
  loWord : D → Nat
  stray : Json D → Except Fault (List (Member D))

/-- The members `HasMember` looks through.  The assertion that the value is an
object is not compiled in; the first half word of another value is taken for the
number of its members, and if that is 0 it has none. -/
def JsonReading.members (R : JsonReading D) : Json D → Except Fault (List (Member D))
  | .obj doc => .ok doc
  | .null => .ok []
  | .bool _ => .ok []
  | .int n => if n % 2 ^ 32 = 0 then .ok [] else R.stray (.int n)
  | .double x => if R.loWord x = 0 then .ok [] else R.stray (.double x)
  | .arr [] => .ok []
  | value => R.stray value

/-- What `load_json_doc` reads, which asks for an object first. -/
def Json.members : Json D → List (Member D)
  | .obj doc => doc
  | _ => []

/-- `parse_sorter_json_doc`; null is `none`. -/
def parseSorterJsonDoc (R : JsonReading D) (value : Json D) :
    Except Fault (Option (SorterOpBase D)) := do
  match findMember "op".toList (← R.members value) with
  | some (.str opname) =>
      if cString opname = "sort".toList then return (loadSorter value.members).toOption.map .sort
      else if cString opname = "count".toList then
        return (loadCounter R.trunc value.members).toOption.map .count
      else return none
  | _ => return none

/-- `parse_sorter_json_doc_outter` -/
def parseSorterJsonDocOutter (R : JsonReading D) (doc : List (Member D)) :
    Except Fault (Option (SorterOpBase D)) :=
  match findMember "counter".toList doc, findMember "sorter".toList doc with
  | some counter, _ => parseSorterJsonDoc R counter
  | none, some sorter => parseSorterJsonDoc R sorter
  | none, none => parseSorterJsonDoc R (.obj doc)

/-! ## Answers stay inside the bitmap -/

namespace RangedMap

variable {m : RangedMap D} {filtered : Nat → Bool}

omit [DoubleArith D] in
theorem filtered_of_getTopkResult {topk : Int} {asc : Bool} {r : RecallResult D}
    (h : m.getTopkResult topk asc filtered = .ok r) : ∀ o ∈ r.offsets, filtered o = false := by
  unfold getTopkResult at h
  split at h
  · cases h
  · cases h
    intro o ho
    obtain ⟨e, he, rfl⟩ := List.mem_map.mp ho
    simpa using (List.mem_filter.mp (List.mem_of_mem_take he)).2

theorem walkOut_subset {center : D} {n : Nat} {ls rs : List (D × Nat)} {e : D × Nat}
    (h : e ∈ walkOut center n ls rs) : e ∈ ls ∨ e ∈ rs := by
  fun_induction walkOut center n ls rs with
  | case1 => cases h
  | case2 => cases h
  | case3 n l ls ih => grind
  | case4 n r rs ih => grind
  | case5 n l ls r rs _ ih => grind
  | case6 n l ls r rs _ ih => grind

theorem filtered_of_getTopkResultCenter1d {topk : Int} {center : D} {r : RecallResult D}
    (h : m.getTopkResultCenter1d topk center filtered = .ok r) :
    ∀ o ∈ r.offsets, filtered o = false := by
  unfold getTopkResultCenter1d at h
  split at h
  · cases h
    exact fun o ho => nomatch ho
  · split at h
    · cases h
    · split at h
      · cases h
      · cases h
        intro o ho
        obtain ⟨e, he, rfl⟩ := List.mem_map.mp ho
        have hkept : e ∈ m.entries.filter fun e => !filtered e.2 := by
          rcases List.mem_append.mp he with he | he
          · exact List.mem_of_mem_filter (List.mem_of_mem_take he)
          · rcases walkOut_subset he with he | he
            · exact List.mem_of_mem_filter (List.mem_reverse.mp he)
            · exact List.mem_of_mem_filter he
        simpa using (List.mem_filter.mp hkept).2

omit [DoubleArith D] in
theorem filtered_of_gatherSlot {topk maxSize : Nat} {es : List (D × Nat)} {cnt : Nat} {last : D} :
    ∀ o ∈ (gatherSlot topk maxSize filtered es cnt last).1, filtered o = false := by
  induction es generalizing cnt last with
  | nil => exact fun o ho => nomatch ho
  | cons e es ih =>
      unfold gatherSlot
      split
      · exact ih
      · next hkeep =>
          have he : filtered e.2 = false := Bool.eq_false_of_not_eq_true hkeep
          split
          · exact List.forall_mem_singleton.mpr he
          · split
            · exact List.forall_mem_singleton.mpr he
            · exact List.forall_mem_cons.mpr ⟨he, ih⟩

omit [DoubleArith D] in
theorem filtered_of_gather {topk maxSize : Nat} {asc : Bool} {ss : List (Slot D)} {cnt : Nat}
    {last : D} : ∀ o ∈ gather topk maxSize asc filtered ss cnt last, filtered o = false := by
  induction ss generalizing cnt last with
  | nil => exact fun o ho => nomatch ho
  | cons s ss ih =>
      unfold gather
      split
      · exact List.forall_mem_append.mpr ⟨filtered_of_gatherSlot, ih⟩
      · exact fun o ho => nomatch ho

theorem filtered_of_getTopkResultWithConditions {std : Algorithms} {topk : Int} {asc : Bool}
    {conditions : List (RangedMap D × Bool)} {r : RecallResult D}
    (h : m.getTopkResultWithConditions std topk asc filtered conditions = .ok r) :
    ∀ o ∈ r.offsets, filtered o = false := by
  unfold getTopkResultWithConditions at h
  split at h
  · cases h
  · cases h
    intro o ho
    exact filtered_of_gather o ((std.sort_perm _ _).subset (List.mem_of_mem_take ho))

end RangedMap

/-- A successful answer of `some <$> …` is the answer of the inner call. -/
theorem of_some_map_eq_ok {α : Type} {x : Except Fault α} {a : α}
    (h : some <$> x = .ok (some a)) : x = .ok a := by
  cases x with
  | error e => cases h
  | ok b =>
      cases h
      rfl

namespace SorterOp

variable {std : Algorithms} {G : FieldBitmapGroupSet D} {op : SorterOp D}

theorem filtered_of_calcTopkFiltered {filtered : Nat → Bool} {r : RecallResult D}
    (h : op.calcTopkFiltered std G filtered = .ok (some r)) :
    ∀ o ∈ r.offsets, filtered o = false := by
  unfold calcTopkFiltered at h
  split at h
  · cases h
  · exact RangedMap.filtered_of_getTopkResult (of_some_map_eq_ok h)
  · split at h
    · cases h
    · exact RangedMap.filtered_of_getTopkResultWithConditions (of_some_map_eq_ok h)
  · exact RangedMap.filtered_of_getTopkResultCenter1d (of_some_map_eq_ok h)

theorem mem_of_calcTopkResult {eps : D} {b : Bitmap} {r : RecallResult D}
    (h : op.calcTopkResult std G eps (some b) = .ok (some r)) : ∀ o ∈ r.offsets, o ∈ b.elems := by
  intro o ho
  simp only [calcTopkResult] at h
  split at h
  · simp only [calcTopkSmall, Except.ok.injEq] at h
    split at h
    · cases h
    · cases h
    · cases h
      exact (Finset.mem_sort _).mp (std.pop_subset _ _ _ o ho)
  · simpa using filtered_of_calcTopkFiltered h o ho

end SorterOp

namespace CounterOp

variable {G : FieldBitmapGroupSet D}

/-- No count of the table is greater. -/
def CountsLe (counts : AList (fun _ : Str => Nat)) (n : Nat) : Prop :=
  ∀ e ∈ counts.entries, e.2 ≤ n

theorem countsLe_insert {counts : AList (fun _ : Str => Nat)} {n k : Nat} {key : Str}
    (h : CountsLe counts n) (hk : k ≤ n) : CountsLe (counts.insert key k) n := by
  intro e he
  rw [AList.entries_insert] at he
  rcases List.mem_cons.mp he with rfl | he
  · exact hk
  · exact h e ((List.kerase_sublist _ _).subset he)

theorem countsLe_foldl {α : Type} {f : AList (fun _ : Str => Nat) → α → AList (fun _ : Str => Nat)}
    {n : Nat} {l : List α} {acc : AList (fun _ : Str => Nat)} (hacc : CountsLe acc n)
    (hf : ∀ a ∈ l, ∀ acc, CountsLe acc n → CountsLe (f acc a) n) :
    CountsLe (l.foldl f acc) n := by
  induction l generalizing acc with
  | nil => exact hacc
  | cons a l ih =>
      exact ih (hf a List.mem_cons_self acc hacc) fun b hb => hf b (List.mem_cons_of_mem _ hb)

theorem card_intersect_le (b v : Bitmap) : (b.intersect v).elems.card ≤ v.elems.card := by
  rw [Bitmap.elems_intersect]
  exact Finset.card_le_card Finset.inter_subset_right

omit [DoubleArith D] in
theorem firstEnums_le {name : Str} {g : FieldBitmapGroup D} {v : Bitmap} :
    CountsLe (firstEnums name g (some v)).1 v.elems.card ∧
      ∀ e ∈ (firstEnums name g (some v)).2, e.2.elems.card ≤ v.elems.card := by
  have hbitmaps : ∀ e ∈ (firstEnums name g (some v)).2, e.2.elems.card ≤ v.elems.card := by
    intro e he
    obtain ⟨e', -, rfl⟩ := List.mem_map.mp he
    exact card_intersect_le e'.2 v
  refine ⟨?_, hbitmaps⟩
  have hfold : CountsLe ((firstEnums name g (some v)).2.foldl
      (fun acc e => acc.insert e.1 e.2.elems.card) ∅) v.elems.card :=
    countsLe_foldl (fun e he => nomatch he) fun e he acc hacc =>
      countsLe_insert hacc (hbitmaps e he)
  simp only [firstEnums]
  split
  · next hv =>
      cases hv
      exact countsLe_insert hfold le_rfl
  · next hv => cases hv
  · exact hfold

omit [DoubleArith D] in
theorem jointEnums_le {g : FieldBitmapGroup D} {within : List (Str × Bitmap)} {n : Nat}
    (h : ∀ e ∈ within, e.2.elems.card ≤ n) : CountsLe (jointEnums g within) n := by
  refine countsLe_foldl (fun e he => nomatch he) fun pkv hpkv acc hacc => ?_
  have hkeys := countsLe_foldl (l := g.bitmaps.entries) hacc
    (f := fun acc e =>
      let n := (e.2.intersect pkv.2).elems.card
      if 0 < n then acc.insert (pkv.1 ++ ',' :: e.1) n else acc)
    (fun e _ acc hacc => by
      change CountsLe (if _ then _ else _) n
      split
      · exact countsLe_insert hacc ((card_intersect_le e.2 pkv.2).trans (h pkv hpkv))
      · exact hacc)
  cases g.ranged with
  | none => exact hkeys
  | some _ => exact countsLe_insert hkeys (h pkv hpkv)

omit [DoubleArith D] in
theorem countFieldEnums_le {fields : List Str} {v : Bitmap} {counts : AList (fun _ : Str => Nat)}
    (h : countFieldEnums G fields (some v) = some counts) : CountsLe counts v.elems.card := by
  unfold countFieldEnums at h
  split at h
  · obtain ⟨g, -, rfl⟩ := Option.map_eq_some_iff.mp h
    exact firstEnums_le.1
  · obtain ⟨g₀, -, h⟩ := Option.bind_eq_some_iff.mp h
    obtain ⟨g₁, -, h⟩ := Option.bind_eq_some_iff.mp h
    cases h
    exact jointEnums_le firstEnums_le.2
  · cases h

omit [DoubleArith D] in
theorem le_card_of_calcTopkResult {op : CounterOp} {v : Bitmap} {r : SorterResult D}
    (h : op.calcTopkResult G (some v) = some r) : ∀ e ∈ r.counts, e.2 ≤ v.elems.card := by
  unfold calcTopkResult at h
  split at h
  · cases h
    exact List.forall_mem_singleton.mpr le_rfl
  · obtain ⟨counts, hcounts, rfl⟩ := Option.map_eq_some_iff.mp h
    have hle := countFieldEnums_le hcounts
    intro e he
    have hmem : e ∈ sortedCounts counts := by
      simp only at he
      split at he
      · exact List.mem_of_mem_filter (List.mem_of_mem_take he)
      · exact List.mem_of_mem_filter he
    obtain ⟨e', he', rfl⟩ := List.mem_map.mp ((List.perm_insertionSort _ _).subset hmem)
    exact hle e' he'

omit [DoubleArith D] in
theorem offsets_of_calcTopkResult {op : CounterOp} {valid : BitmapPtr} {r : SorterResult D}
    (h : op.calcTopkResult G valid = some r) : r.recalled.offsets = [] := by
  unfold calcTopkResult at h
  split at h
  · cases h
    rfl
  · obtain ⟨counts, -, rfl⟩ := Option.map_eq_some_iff.mp h
    rfl

end CounterOp

/-- Under a bitmap, a sorter answers with offsets of it and with counts that are
not greater than it. -/
theorem SorterOpBase.within {std : Algorithms} {eps : D} {G : FieldBitmapGroupSet D} {b : Bitmap}
    {op : SorterOpBase D} {r : SorterResult D}
    (h : op.calcTopkResult std eps G (some b) = .ok (some r)) :
    (∀ o ∈ r.recalled.offsets, o ∈ b.elems) ∧ ∀ e ∈ r.counts, e.2 ≤ b.elems.card := by
  cases op with
  | sort op =>
      simp only [calcTopkResult] at h
      cases hop : op.calcTopkResult std G eps (some b) with
      | error e => rw [hop] at h; cases h
      | ok res =>
          rw [hop] at h
          obtain ⟨res', rfl, rfl⟩ := Option.map_eq_some_iff.mp (Except.ok.inj h)
          exact ⟨SorterOp.mem_of_calcTopkResult hop, fun e he => nomatch he⟩
  | count op =>
      have hop := Except.ok.inj h
      refine ⟨?_, CounterOp.le_card_of_calcTopkResult hop⟩
      rw [CounterOp.offsets_of_calcTopkResult hop]
      exact fun o ho => nomatch ho

end

end OpenViking.Index
