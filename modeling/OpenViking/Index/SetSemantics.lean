/-
# `OpenViking.Index.SetSemantics` — what a filter selects

A filter denotes a set of records by recursion on the operators (`denote`):
`and` is intersection, `or` union, `must` the records of its keys, `must_not`
the complement among the records of the index.  The evaluation of the code
threads a result through the conditions instead.  It gives the set exactly when
it misjudges no record (`Misjudged`), and that has these causes:

  * a condition that is void, such as `must` without values, forgets what an
    `or` had found so far;
  * a `must_not` on a path field that is not the first condition of an `and`
    takes out the records with exactly the given paths, not those below;
  * the root of a path field stands for every record of the index, with or
    without a path;
  * a path whose bitmap was first created by a deletion is not in the trie;
  * of two fields, `range_out` selects the circle and not what is outside, and
    a circle of radius 0 has no centre.

A record misjudged by a condition need not be misjudged by the filter, so this
goes record by record.
-/
import OpenViking.Index.FilterParser

namespace OpenViking.Index

open OpenViking.Lib

variable {D : Type} [LinearOrder D]

namespace FilterOp

/-- The conditions of a logic operator. -/
def conds : FilterOp D → List (FilterOp D)
  | and _ cs => cs
  | or cs => cs
  | _ => []

mutual

/-- Induction on filters. -/
theorem induct {P : FilterOp D → Prop} (h : ∀ op : FilterOp D, (∀ c ∈ op.conds, P c) → P op) :
    ∀ op, P op
  | and _ cs => h _ (inductConds h cs)
  | or cs => h _ (inductConds h cs)
  | must _ _ _ => h _ nofun
  | mustNot _ _ _ => h _ nofun
  | range _ _ _ => h _ nofun
  | range2d _ _ _ _ _ _ => h _ nofun
  | labelIn _ => h _ nofun
  | startsWith _ _ => h _ nofun
  | contains _ _ => h _ nofun
  | regex _ _ => h _ nofun

theorem inductConds {P : FilterOp D → Prop} (h : ∀ op : FilterOp D, (∀ c ∈ op.conds, P c) → P op) :
    ∀ (cs : List (FilterOp D)), ∀ c ∈ cs, P c
  | [], _, hc => nomatch hc
  | c :: cs, d, hd =>
      match List.mem_cons.mp hd with
      | .inl e => e ▸ induct h c
      | .inr hd => inductConds h cs d hd

end

end FilterOp

section

variable [DoubleArith D] (regex : Str → Option (Str → Bool)) (G : FieldBitmapGroupSet D)

/-! ## The denotation -/

/-- `must`: the records of the keys given; of a path field, of the keys at or
below one of them. -/
def mustSet (field : Str) (conds : List Str) (depth : Int) : Set Nat :=
  if G.isPathFieldName field then
    G.keySet field fun key => ∃ path ∈ conds, DirIndex.AtOrBelow path depth key
  else G.keySet field (· ∈ conds)

/-- How the keys of a field are written that begin with `start`. -/
def keyStart (field start : Str) : Str :=
  if G.isPathFieldName field && start ≠ [] && start.head? ≠ some '/' then '/' :: start else start

/-- The numbers of a field. -/
def HasValue (field : Str) (v : D) (o : Nat) : Prop :=
  ∃ g m, G.findFieldGroup field = some g ∧ g.ranged = some m ∧ (v, o) ∈ m.entries

/-- The record has a number in both fields. -/
def HasBoth (field₀ field₁ : Str) (o : Nat) : Prop :=
  (∃ v, HasValue G field₀ v o) ∧ ∃ v, HasValue G field₁ v o

/-- Two numeric fields, the circle around a point. -/
def NearIn (field₀ field₁ : Str) (x y radius : D) (o : Nat) : Prop :=
  ∃ g₀ g₁ xs ys, G.findFieldGroup field₀ = some g₀ ∧ G.findFieldGroup field₁ = some g₁ ∧
    g₀.ranged = some xs ∧ g₁.ranged = some ys ∧ RangedMap.Near xs ys x y radius o

/-- The leaves. -/
def leafSet : FilterOp D → Set Nat
  | .must field conds depth => mustSet G field conds depth
  | .mustNot field conds depth => { o | o < G.elementSize ∧ o ∉ mustSet G field conds depth }
  | .range rangeOut field bounds => { o | ∃ v, HasValue G field v o ∧ bounds.Wants rangeOut v }
  | .range2d false field₀ field₁ x y radius => { o | NearIn G field₀ field₁ x y radius o }
  | .range2d true field₀ field₁ x y radius =>
      { o | HasBoth G field₀ field₁ o ∧ ¬ NearIn G field₀ field₁ x y radius o }
  | .labelIn labels =>
      { o | ∃ offsetOf, G.converter = some offsetOf ∧ ∃ label ∈ labels, offsetOf label = some o }
  | .startsWith field value =>
      { o | value ≠ [] ∧ o ∈ G.keySet field fun key => keyStart G field value <+: key }
  | .contains field substring =>
      { o | substring ≠ [] ∧ o ∈ G.keySet field fun key => substring <:+: key }
  | .regex field pattern =>
      { o | pattern ≠ [] ∧ ∃ search, regex pattern = some search ∧
        o ∈ G.keySet field fun key => search key = true }
  | .and _ _ => ∅
  | .or _ => ∅

/-- The evaluation of the condition is not null: what an `and` asks that ignores
empty conditions. -/
def HasResult (cond : FilterOp D) : Prop := (calcBitmap regex G cond).isSome = true

mutual

/-- The set of records a filter stands for. -/
def denote : FilterOp D → Set Nat
  | .and false conds => denoteAll conds
  | .and true conds => { o | (∃ c ∈ conds, HasResult regex G c) ∧ o ∈ denotePresent conds }
  | .or conds => denoteAny conds
  | .must field conds depth => leafSet regex G (.must field conds depth)
  | .mustNot field conds depth => leafSet regex G (.mustNot field conds depth)
  | .range rangeOut field bounds => leafSet regex G (.range rangeOut field bounds)
  | .range2d rangeOut field₀ field₁ x y radius =>
      leafSet regex G (.range2d rangeOut field₀ field₁ x y radius)
  | .labelIn labels => leafSet regex G (.labelIn labels)
  | .startsWith field value => leafSet regex G (.startsWith field value)
  | .contains field substring => leafSet regex G (.contains field substring)
  | .regex field pattern => leafSet regex G (.regex field pattern)

def denoteAll : List (FilterOp D) → Set Nat
  | [] => Set.univ
  | cond :: conds => denote cond ∩ denoteAll conds

def denotePresent : List (FilterOp D) → Set Nat
  | [] => Set.univ
  | cond :: conds => { o | HasResult regex G cond → o ∈ denote cond } ∩ denotePresent conds

def denoteAny : List (FilterOp D) → Set Nat
  | [] => ∅
  | cond :: conds => denote cond ∪ denoteAny conds

end

variable {regex G}

theorem mem_denoteAll {conds : List (FilterOp D)} {o : Nat} :
    o ∈ denoteAll regex G conds ↔ ∀ c ∈ conds, o ∈ denote regex G c := by
  induction conds with
  | nil => simp [denoteAll]
  | cons c cs ih => simp [denoteAll, ih]

theorem mem_denotePresent {conds : List (FilterOp D)} {o : Nat} :
    o ∈ denotePresent regex G conds ↔
      ∀ c ∈ conds, HasResult regex G c → o ∈ denote regex G c := by
  induction conds with
  | nil => simp [denotePresent]
  | cons c cs ih => simp [denotePresent, ih]

theorem mem_denoteAny {conds : List (FilterOp D)} {o : Nat} :
    o ∈ denoteAny regex G conds ↔ ∃ c ∈ conds, o ∈ denote regex G c := by
  induction conds with
  | nil => simp [denoteAny]
  | cons c cs ih => simp [denoteAny, ih]

/-! ## Records that are misjudged -/

variable (regex G)

/-- The key is in the trie of the path field. -/
def Registered (field key : Str) : Prop :=
  ∃ g dip, G.findFieldGroup field = some g ∧ g.dir = some dip ∧ DirIndex.Has dip key

/-- The conditions name the root of the tree, without a limit on the depth. -/
def NamesRoot (conds : List Str) (depth : Int) : Prop :=
  depth = -1 ∧ conds.any FieldBitmapGroupSet.isRootPath = true

instance (conds : List Str) (depth : Int) : Decidable (NamesRoot conds depth) :=
  inferInstanceAs (Decidable (_ ∧ _))

/-- The records of the keys a `must` on a path field asks for that are in the trie. -/
def reachedSet (field : Str) (conds : List Str) (depth : Int) : Set Nat :=
  G.keySet field fun key =>
    Registered G field key ∧ ∃ path ∈ conds, DirIndex.AtOrBelow path depth key

/-- The conditions an `or` remembers: those after the last void one. -/
def afterLastVoid : List (FilterOp D) → List (FilterOp D)
  | [] => []
  | c :: cs =>
      if cs.any FilterOp.isVoid then afterLastVoid cs else if c.isVoid then cs else c :: cs

/-- How an `and` tests a condition that is not its first: a `must_not` is asked
for the given keys only. -/
def PassesLater (o : Nat) (kept : Prop) : FilterOp D → Prop
  | .mustNot field conds _ => o ∉ G.keySet field (· ∈ conds)
  | _ => kept

/-- Is the operator a `must_not`? -/
def FilterOp.isMustNot : FilterOp D → Bool
  | .mustNot _ _ _ => true
  | _ => false

/-- A record of the set is kept, another is not, unless it is misjudged. -/
def Kept (inSet misjudged : Prop) : Prop := inSet ↔ ¬ misjudged

omit [DoubleArith D] in
theorem afterLastVoid_subset {cs : List (FilterOp D)} {d : FilterOp D}
    (h : d ∈ afterLastVoid cs) : d ∈ cs := by
  induction cs with
  | nil => exact h
  | cons c cs ih =>
      rw [afterLastVoid] at h
      split at h
      · exact List.mem_cons_of_mem _ (ih h)
      · split at h
        · exact List.mem_cons_of_mem _ h
        · exact h

/-- The record is in the set of the filter and is lost, or is found outside it. -/
def Misjudged (o : Nat) : FilterOp D → Prop
  | .must field conds depth =>
      G.isPathFieldName field = true ∧
        if NamesRoot conds depth then ¬ (o < G.elementSize ↔ o ∈ mustSet G field conds depth)
        else o ∈ mustSet G field conds depth ∧ o ∉ reachedSet G field conds depth
  | .mustNot field conds depth =>
      G.isPathFieldName field = true ∧ o < G.elementSize ∧
        if NamesRoot conds depth then o ∉ mustSet G field conds depth
        else o ∈ mustSet G field conds depth ∧ o ∉ reachedSet G field conds depth
  | .range2d false field₀ field₁ x y radius =>
      NearIn G field₀ field₁ x y radius o ∧ radius ≤ DoubleArith.ofInt 0
  | .range2d true field₀ field₁ x y radius =>
      HasBoth G field₀ field₁ o ∧
        (NearIn G field₀ field₁ x y radius o → ¬ radius ≤ DoubleArith.ofInt 0)
  | .and false [] => True
  -- lost by a condition that should have kept it; or kept by all, though not by right
  | .and false (first :: rest) =>
      (o ∈ denoteAll regex G (first :: rest) ∧
        (Misjudged o first ∨ ∃ c, ∃ _ : c ∈ rest, c.isMustNot = false ∧ Misjudged o c)) ∨
      (o ∉ denoteAll regex G (first :: rest) ∧
        Kept (o ∈ denote regex G first) (Misjudged o first) ∧
        ∀ c, (_ : c ∈ rest) → PassesLater G o (Kept (o ∈ denote regex G c) (Misjudged o c)) c)
  | .and true conds =>
      (∃ c ∈ conds, HasResult regex G c) ∧
      ((o ∈ denotePresent regex G conds ∧
        ∃ c, ∃ _ : c ∈ conds, HasResult regex G c ∧ Misjudged o c) ∨
      (o ∉ denotePresent regex G conds ∧
        ∀ c, (_ : c ∈ conds) → HasResult regex G c →
          Kept (o ∈ denote regex G c) (Misjudged o c)))
  -- none of the conditions that are remembered keeps it; or one does, though not by right
  | .or conds =>
      (o ∈ denoteAny regex G conds ∧
        ∀ d, (_ : d ∈ afterLastVoid conds) → ¬ Kept (o ∈ denote regex G d) (Misjudged o d)) ∨
      (o ∉ denoteAny regex G conds ∧ ∃ d, ∃ _ : d ∈ afterLastVoid conds, Misjudged o d)
  | .range _ _ _ => False
  | .labelIn _ => False
  | .startsWith _ _ => False
  | .contains _ _ => False
  | .regex _ _ => False
termination_by op => sizeOf op
decreasing_by
  all_goals simp only [FilterOp.and.sizeOf_spec, FilterOp.or.sizeOf_spec, List.cons.sizeOf_spec]
  all_goals first
    | omega
    | (have hlt := List.sizeOf_lt_of_mem ‹_ ∈ _›; omega)
    | (have hlt := List.sizeOf_lt_of_mem (afterLastVoid_subset ‹_ ∈ _›); omega)

variable {regex G}

omit [DoubleArith D] in
theorem exists_dir_of_isPath {field : Str} (h : G.isPathFieldName field = true) :
    ∃ g dip, G.findFieldGroup field = some g ∧ g.dir = some dip := by
  unfold FieldBitmapGroupSet.isPathFieldName at h
  split at h
  · next g hg => exact ⟨g, _, hg, (Option.some_get h).symm⟩
  · cases h

omit [DoubleArith D] in
theorem mem_makePathFieldCopy {field : Str} (h : G.isPathFieldName field = true)
    {conds : List Str} {depth : Int} {o : Nat} :
    o ∈ (G.makePathFieldCopy field conds depth).elems ↔
      if NamesRoot conds depth then o < G.elementSize else o ∈ reachedSet G field conds depth := by
  obtain ⟨g, dip, hg, hdip⟩ := exists_dir_of_isPath h
  unfold FieldBitmapGroupSet.makePathFieldCopy
  simp only [hg]
  by_cases hroot : NamesRoot conds depth
  · rw [if_pos hroot, if_pos (show _ ∧ _ from hroot)]
    simp
  · rw [if_neg hroot, if_neg (show ¬ (_ ∧ _) from hroot)]
    simp only [hdip, BitmapPtr.elems_some, Bitmap.mem_fastUnion, Bitmap.elems_empty,
      Finset.notMem_empty, false_or, List.mem_filterMap, List.mem_flatMap,
      DirIndex.mem_mergedKeys]
    unfold reachedSet
    rw [FieldBitmapGroupSet.keySet_eq_of_find hg]
    constructor
    · rintro ⟨b, ⟨key, ⟨path, hpath, hhas, hbelow⟩, hb⟩, ho⟩
      exact ⟨key, b, ⟨⟨g, dip, hg, hdip, hhas⟩, path, hpath, hbelow⟩, hb, ho⟩
    · rintro ⟨key, b, ⟨⟨g', dip', hg', hdip', hhas⟩, path, hpath, hbelow⟩, hb, ho⟩
      cases hg.symm.trans hg'
      cases hdip.symm.trans hdip'
      exact ⟨b, ⟨key, ⟨path, hpath, hhas, hbelow⟩, hb⟩, ho⟩

omit [DoubleArith D] in
theorem reachedSet_subset {field : Str} (h : G.isPathFieldName field = true) {conds : List Str}
    {depth : Int} {o : Nat} (ho : o ∈ reachedSet G field conds depth) :
    o ∈ mustSet G field conds depth := by
  obtain ⟨key, b, ⟨-, hbelow⟩, hb, hob⟩ := ho
  rw [mustSet, if_pos h]
  exact ⟨key, b, hbelow, hb, hob⟩

/-! ## The leaves -/

theorem calcBitmap_of_not_void {op : FilterOp D} (h : op.isVoid = false) :
    calcBitmap regex G op = calcSelfBitmap regex G op := by
  simp [calcBitmap, accumulate, h]

theorem calcBitmap_of_void {op : FilterOp D} (h : op.isVoid = true) :
    calcBitmap regex G op = none := by
  simp [calcBitmap, accumulate, h]

theorem mem_denote_of_void {op : FilterOp D} (h : op.isVoid = true) {o : Nat} :
    o ∉ denote regex G op := by
  cases op with
  | must field conds depth =>
      obtain rfl : conds = [] := of_decide_eq_true h
      simp only [denote, leafSet, mustSet]
      split <;> rintro ⟨key, b, hk, -⟩
      · obtain ⟨path, hp, -⟩ := hk
        cases hp
      · cases hk
  | labelIn labels =>
      obtain rfl : labels = [] := of_decide_eq_true h
      rintro ⟨offsetOf, -, label, hl, -⟩
      cases hl
  | startsWith field value => exact fun ho => ho.1 (of_decide_eq_true h)
  | contains field substring => exact fun ho => ho.1 (of_decide_eq_true h)
  | regex field pattern => exact fun ho => ho.1 (of_decide_eq_true h)
  | _ => cases h

/-! ## The leaves -/

/-- The evaluation, and what the set says of a record that is not misjudged. -/
def Judged (regex : Str → Option (Str → Bool)) (G : FieldBitmapGroupSet D) (o : Nat)
    (op : FilterOp D) : Prop :=
  o ∈ (calcBitmap regex G op).elems ↔ Kept (o ∈ denote regex G op) (Misjudged regex G o op)

/-- An operator that is evaluated to its set and misjudges nothing. -/
theorem judged_of_exact {op : FilterOp D} {o : Nat} (hno : ¬ Misjudged regex G o op)
    (h : o ∈ (calcBitmap regex G op).elems ↔ o ∈ denote regex G op) : Judged regex G o op :=
  h.trans (iff_true_right hno).symm

theorem not_misjudged_of_void {op : FilterOp D} (h : op.isVoid = true) {o : Nat} :
    ¬ Misjudged regex G o op := by
  cases op with
  | must field conds depth =>
      rw [Misjudged, if_neg]
      · exact fun hm => @mem_denote_of_void _ _ _ regex G _ h o hm.2.1
      · obtain rfl : conds = [] := of_decide_eq_true h
        rintro ⟨-, h⟩
        cases h
  | _ => first | cases h | (rw [Misjudged]; exact id)

theorem judged_of_void {op : FilterOp D} (h : op.isVoid = true) {o : Nat} :
    Judged regex G o op := by
  refine judged_of_exact (not_misjudged_of_void h) ?_
  rw [calcBitmap_of_void h]
  exact ⟨fun ho => absurd ho (Finset.notMem_empty o), fun ho => absurd ho (mem_denote_of_void h)⟩

theorem judged_must {field : Str} {conds : List Str} {depth : Int} {o : Nat} :
    Judged regex G o (.must field conds depth) := by
  cases hv : (FilterOp.must (D := D) field conds depth).isVoid with
  | true => exact judged_of_void hv
  | false =>
      rw [Judged, Misjudged, calcBitmap_of_not_void hv, calcSelfBitmap]
      change _ ↔ (o ∈ mustSet G field conds depth ↔ _)
      by_cases hp : G.isPathFieldName field = true
      · have hsub := @reachedSet_subset _ _ G field hp conds depth o
        rw [if_pos hp, mem_makePathFieldCopy hp]
        by_cases hr : NamesRoot conds depth
        · simp only [if_pos hr]
          tauto
        · simp only [if_neg hr]
          tauto
      · rw [if_neg hp, FieldBitmapGroupSet.mem_makeFieldCopy, mustSet, if_neg hp]
        tauto

theorem judged_mustNot {field : Str} {conds : List Str} {depth : Int} {o : Nat} :
    Judged regex G o (.mustNot field conds depth) := by
  have hv : (FilterOp.mustNot (D := D) field conds depth).isVoid = false := rfl
  rw [Judged, Misjudged, calcBitmap_of_not_void hv, calcSelfBitmap]
  change _ ↔ (o < G.elementSize ∧ o ∉ mustSet G field conds depth ↔ _)
  by_cases hp : G.isPathFieldName field = true
  · have hsub := @reachedSet_subset _ _ G field hp conds depth o
    rw [if_pos hp]
    simp only [FieldBitmapGroupSet.makePathFieldExcludeCopy, BitmapPtr.elems_some,
      Bitmap.elems_excludePtr, FieldBitmapGroupSet.elems_makeFullTemp, Finset.mem_sdiff,
      Finset.mem_range, mem_makePathFieldCopy hp]
    by_cases hr : NamesRoot conds depth
    · simp only [if_pos hr]
      tauto
    · simp only [if_neg hr]
      tauto
  · rw [if_neg hp, FieldBitmapGroupSet.mem_makeFieldExcludeCopy, mustSet, if_neg hp]
    tauto

omit [DoubleArith D] in
theorem mem_makeRangeCopy {rangeOut : Bool} {field : Str} {bounds : RangedMap.Bounds D} {o : Nat} :
    o ∈ (G.makeRangeCopy rangeOut field bounds).elems ↔
      ∃ v, HasValue G field v o ∧ bounds.Wants rangeOut v := by
  unfold FieldBitmapGroupSet.makeRangeCopy HasValue
  cases hg : G.findFieldGroup field with
  | none => simp
  | some g =>
      cases hm : g.ranged with
      | none => simp [hm]
      | some m => simp [hm, RangedMap.mem_getRangeBitmap]

theorem mem_makeRange2dCopy {field₀ field₁ : Str} {x y radius : D} {o : Nat} :
    o ∈ (G.makeRange2dCopy field₀ field₁ x y radius).elems ↔
      ¬ radius ≤ DoubleArith.ofInt 0 ∧ NearIn G field₀ field₁ x y radius o := by
  unfold FieldBitmapGroupSet.makeRange2dCopy NearIn
  cases hg₀ : G.findFieldGroup field₀ with
  | none => simp
  | some g₀ =>
      cases hg₁ : G.findFieldGroup field₁ with
      | none => simp
      | some g₁ =>
          cases hx : g₀.ranged with
          | none => simp [hx]
          | some xs =>
              cases hy : g₁.ranged with
              | none => simp [hx, hy]
              | some ys => simp [hx, hy, RangedMap.mem_getRange2dBitmap]

/-- What is near has both numbers. -/
theorem hasBoth_of_nearIn {field₀ field₁ : Str} {x y radius : D} {o : Nat}
    (h : NearIn G field₀ field₁ x y radius o) : HasBoth G field₀ field₁ o := by
  obtain ⟨g₀, g₁, xs, ys, hg₀, hg₁, hx, hy, ⟨v, hv, -⟩, ⟨w, hw, -⟩, -⟩ := h
  exact ⟨⟨v, g₀, xs, hg₀, hx, hv⟩, ⟨w, g₁, ys, hg₁, hy, hw⟩⟩

theorem judged_range2d {rangeOut : Bool} {field₀ field₁ : Str} {x y radius : D} {o : Nat} :
    Judged regex G o (.range2d rangeOut field₀ field₁ x y radius) := by
  have hboth := @hasBoth_of_nearIn _ _ _ G field₀ field₁ x y radius o
  rw [Judged, calcBitmap_of_not_void rfl, calcSelfBitmap, mem_makeRange2dCopy]
  cases rangeOut with
  | false =>
      rw [Misjudged]
      change _ ↔ (NearIn G field₀ field₁ x y radius o ↔ _)
      tauto
  | true =>
      rw [Misjudged]
      change _ ↔ (HasBoth G field₀ field₁ o ∧ ¬ NearIn G field₀ field₁ x y radius o ↔ _)
      tauto

omit [DoubleArith D] in
theorem mem_labelInBitmap {labels : List Nat} {o : Nat} :
    o ∈ (labelInBitmap G labels).elems ↔
      ∃ offsetOf, G.converter = some offsetOf ∧ ∃ label ∈ labels, offsetOf label = some o := by
  unfold labelInBitmap FieldBitmapGroupSet.convertLabels
  cases G.converter with
  | none => simp
  | some offsetOf =>
      have hmem : o ∈ labels.filterMap offsetOf ↔ ∃ label ∈ labels, offsetOf label = some o :=
        List.mem_filterMap
      cases hoff : labels.filterMap offsetOf with
      | nil => simpa [hoff] using hmem
      | cons a l => simpa [hoff] using hmem

omit [DoubleArith D] in
theorem mem_makeFieldPrefixCopy {field start : Str} {o : Nat} :
    o ∈ (G.makeFieldPrefixCopy field start).elems ↔
      o ∈ G.keySet field fun key => keyStart G field start <+: key := by
  unfold FieldBitmapGroupSet.makeFieldPrefixCopy
  cases hg : G.findFieldGroup field with
  | none => simp [FieldBitmapGroupSet.keySet_eq_empty hg]
  | some g =>
      rw [FieldBitmapGroupSet.keySet_eq_of_find hg]
      simp only [← List.isPrefixOf_iff_prefix]
      exact g.mem_unionWhere

omit [DoubleArith D] in
theorem mem_makeFieldContainsCopy {field substring : Str} {o : Nat} :
    o ∈ (G.makeFieldContainsCopy field substring).elems ↔
      o ∈ G.keySet field fun key => substring <:+: key := by
  unfold FieldBitmapGroupSet.makeFieldContainsCopy
  cases hg : G.findFieldGroup field with
  | none => simp [FieldBitmapGroupSet.keySet_eq_empty hg]
  | some g =>
      rw [FieldBitmapGroupSet.keySet_eq_of_find hg]
      simp only [FieldBitmapGroup.getBitmapByContains, g.mem_unionWhere, decide_eq_true_eq]

omit [DoubleArith D] in
theorem mem_makeFieldRegexCopy {field pattern : Str} {o : Nat} :
    o ∈ (G.makeFieldRegexCopy regex field pattern).elems ↔
      ∃ search, regex pattern = some search ∧
        o ∈ G.keySet field fun key => search key = true := by
  unfold FieldBitmapGroupSet.makeFieldRegexCopy FieldBitmapGroup.getBitmapByRegex
  cases hg : G.findFieldGroup field with
  | none => simp [FieldBitmapGroupSet.keySet_eq_empty hg]
  | some g =>
      simp only [FieldBitmapGroupSet.keySet_eq_of_find hg]
      cases regex pattern with
      | none => simp
      | some search => simp [g.mem_unionWhere]

/-- The other leaves are their sets. -/
theorem judged_of_self {op : FilterOp D} {o : Nat} (hno : ¬ Misjudged regex G o op)
    (hself : op.isVoid = false →
      (o ∈ (calcSelfBitmap regex G op).elems ↔ o ∈ denote regex G op)) :
    Judged regex G o op := by
  cases hv : op.isVoid with
  | true => exact judged_of_void hv
  | false =>
      refine judged_of_exact hno ?_
      rw [calcBitmap_of_not_void hv]
      exact hself hv

/-! ## Logic operators -/

/-- One condition of an `and`, on a result so far. -/
theorem mem_accumulate_and {c : FilterOp D} {p : Bitmap} {o : Nat} :
    o ∈ (accumulate G c (calcSelfBitmap regex G c) (some p) .and).elems ↔
      o ∈ p.elems ∧ PassesLater G o (o ∈ (calcBitmap regex G c).elems) c := by
  cases hv : c.isVoid with
  | true =>
      have hno : ¬ PassesLater G o (o ∈ (calcBitmap regex G c).elems) c := by
        rw [calcBitmap_of_void hv]
        cases c with
        | mustNot field conds depth => cases hv
        | _ => exact Finset.notMem_empty o
      simp [accumulate, hv, hno]
  | false =>
      rw [calcBitmap_of_not_void hv]
      cases c with
      | mustNot field conds depth =>
          change _ ↔ o ∈ p.elems ∧ o ∉ G.keySet field (· ∈ conds)
          rw [← FieldBitmapGroupSet.mem_makeFieldCopy]
          match conds with
          | [] => simp [accumulate, hv, FieldBitmapGroupSet.makeFieldCopy]
          | [key] => simp [accumulate, hv, FieldBitmapGroupSet.makeFieldCopy]
          | key :: key' :: keys => simp [accumulate, hv]
      | _ =>
          simp only [accumulate, hv, Bool.false_eq_true, if_false, PassesLater]
          generalize calcSelfBitmap regex G _ = self
          cases self <;> simp

theorem mem_calcConds_and {cs : List (FilterOp D)} {p : Bitmap} {o : Nat} :
    o ∈ (calcConds regex G .and cs (some p)).elems ↔
      o ∈ p.elems ∧ ∀ c ∈ cs, PassesLater G o (o ∈ (calcBitmap regex G c).elems) c := by
  induction cs generalizing p with
  | nil => simp [calcConds]
  | cons c cs ih =>
      have hstep := @mem_accumulate_and _ _ _ regex G c p o
      rw [List.forall_mem_cons, ← and_assoc, ← hstep, calcConds_and_cons]
      cases accumulate G c (calcSelfBitmap regex G c) (some p) .and with
      | none => simp
      | some q => exact ih

/-- The first condition of an `and` is evaluated on its own. -/
theorem mem_calcConds_and_first {first : FilterOp D} {rest : List (FilterOp D)} {o : Nat} :
    o ∈ (calcConds regex G .and (first :: rest) none).elems ↔
      o ∈ (calcBitmap regex G first).elems ∧
        ∀ c ∈ rest, PassesLater G o (o ∈ (calcBitmap regex G c).elems) c := by
  have hself : accumulate G first (calcSelfBitmap regex G first) none .and =
      calcBitmap regex G first := rfl
  rw [calcConds_and_cons, hself]
  cases calcBitmap regex G first with
  | none => simp
  | some q => exact mem_calcConds_and

/-- One condition of an `or`: a void one loses the result so far. -/
theorem mem_accumulate_or {c : FilterOp D} {pres : BitmapPtr} {o : Nat} :
    o ∈ (accumulate G c (calcSelfBitmap regex G c) pres .or).elems ↔
      c.isVoid = false ∧ (o ∈ pres.elems ∨ o ∈ (calcBitmap regex G c).elems) := by
  cases hv : c.isVoid with
  | true => simp [accumulate, hv]
  | false =>
      rw [calcBitmap_of_not_void hv]
      cases pres <;> simp [accumulate, hv]

omit [DoubleArith D] in
theorem afterLastVoid_eq_self {cs : List (FilterOp D)} (h : cs.any FilterOp.isVoid = false) :
    afterLastVoid cs = cs := by
  cases cs with
  | nil => rfl
  | cons c cs =>
      rw [List.any_cons, Bool.or_eq_false_iff] at h
      simp [afterLastVoid, h.1, h.2]

theorem mem_calcConds_or {cs : List (FilterOp D)} {pres : BitmapPtr} {o : Nat} :
    o ∈ (calcConds regex G .or cs pres).elems ↔
      (o ∈ pres.elems ∧ cs.any FilterOp.isVoid = false) ∨
        ∃ d ∈ afterLastVoid cs, o ∈ (calcBitmap regex G d).elems := by
  induction cs generalizing pres with
  | nil => simp [calcConds, afterLastVoid]
  | cons c cs ih =>
      rw [calcConds_or_cons, ih, mem_accumulate_or, afterLastVoid, List.any_cons]
      cases hany : cs.any FilterOp.isVoid with
      | true => simp
      | false =>
          have hafter : afterLastVoid cs = cs := afterLastVoid_eq_self hany
          cases hv : c.isVoid with
          | true => simp [hafter]
          | false => simp [hafter, or_assoc]

/-- The loop that ignores empty conditions, before and after it has a result. -/
theorem mem_calcIgnoringEmpty {cs : List (FilterOp D)} {o : Nat} :
    (∀ p : Bitmap, o ∈ (calcIgnoringEmpty regex G cs (some p)).elems ↔
      o ∈ p.elems ∧ ∀ c ∈ cs, HasResult regex G c → o ∈ (calcBitmap regex G c).elems) ∧
    (o ∈ (calcIgnoringEmpty regex G cs none).elems ↔
      (∃ c ∈ cs, HasResult regex G c) ∧
        ∀ c ∈ cs, HasResult regex G c → o ∈ (calcBitmap regex G c).elems) := by
  induction cs with
  | nil => simp [calcIgnoringEmpty]
  | cons c cs ih =>
      have hself : accumulate G c (calcSelfBitmap regex G c) none .and =
          calcBitmap regex G c := rfl
      simp only [calcIgnoringEmpty, hself, HasResult, List.exists_mem_cons_iff,
        List.forall_mem_cons] at ih ⊢
      cases calcBitmap regex G c with
      | none => simpa using ih
      | some found => simp [ih.1, and_assoc]

omit [DoubleArith D] in
theorem keySet_subset_mustSet {field : Str} {conds : List Str} {depth : Int} {o : Nat}
    (ho : o ∈ G.keySet field (· ∈ conds)) : o ∈ mustSet G field conds depth := by
  rw [mustSet]
  split
  · obtain ⟨key, b, hkey, hb, hob⟩ := ho
    exact ⟨key, b, ⟨key, hkey, [], (List.append_nil _).symm, .inr (.inl rfl)⟩, hb, hob⟩
  · exact ho

/-- A record an `and` ought to select passes a `must_not` on the way. -/
theorem passesLater_of_mem_denote {c : FilterOp D} {o : Nat} {kept : Prop}
    (h : o ∈ denote regex G c) (hkept : c.isMustNot = false → kept) : PassesLater G o kept c := by
  cases c with
  | mustNot field conds depth => exact fun ho => h.2 (keySet_subset_mustSet ho)
  | _ => exact hkept rfl

omit [DoubleArith D] in
theorem passesLater_iff {c : FilterOp D} {o : Nat} {kept : Prop} (h : c.isMustNot = false) :
    PassesLater G o kept c ↔ kept := by
  cases c with
  | mustNot field conds depth => cases h
  | _ => rfl

theorem judged_and {first : FilterOp D} {rest : List (FilterOp D)} {o : Nat}
    (ih : ∀ c ∈ first :: rest, Judged regex G o c) :
    Judged regex G o (.and false (first :: rest)) := by
  have hlater : ∀ c ∈ rest, (PassesLater G o (o ∈ (calcBitmap regex G c).elems) c ↔
      PassesLater G o (Kept (o ∈ denote regex G c) (Misjudged regex G o c)) c) := fun c hc => by
    rw [show o ∈ (calcBitmap regex G c).elems ↔ _ from ih c (List.mem_cons_of_mem _ hc)]
  rw [Judged, calcBitmap_of_not_void rfl, calcSelfBitmap, mem_calcConds_and_first,
    show o ∈ (calcBitmap regex G first).elems ↔ _ from ih first List.mem_cons_self,
    forall₂_congr hlater, Misjudged]
  by_cases hin : o ∈ denoteAll regex G (first :: rest)
  · obtain ⟨hfirst, hrest⟩ := List.forall_mem_cons.mp (mem_denoteAll.mp hin)
    simp only [Kept, denote, hin, hfirst, true_and, not_true_eq_false, false_and, or_false,
      true_iff, not_or, not_exists, not_and]
    refine and_congr_right' (forall₂_congr fun c hc => ⟨fun h hn => ?_, fun h => ?_⟩)
    · exact ((passesLater_iff hn).mp h).mp (hrest c hc)
    · exact passesLater_of_mem_denote (hrest c hc) fun hn => iff_of_true (hrest c hc) (h hn)
  · simp only [Kept, denote, hin]
    tauto

theorem judged_and_present {cs : List (FilterOp D)} {o : Nat}
    (ih : ∀ c ∈ cs, Judged regex G o c) : Judged regex G o (.and true cs) := by
  have hpresent : ∀ c ∈ cs, ((HasResult regex G c → o ∈ (calcBitmap regex G c).elems) ↔
      (HasResult regex G c → Kept (o ∈ denote regex G c) (Misjudged regex G o c))) :=
    fun c hc => imp_congr_right fun _ => ih c hc
  rw [Judged, calcBitmap_of_not_void rfl, calcSelfBitmap, mem_calcIgnoringEmpty.2,
    forall₂_congr hpresent, Misjudged]
  by_cases hin : o ∈ denotePresent regex G cs
  · have hall := mem_denotePresent.mp hin
    simp only [Kept, denote, Set.mem_ofPred_eq, hin, and_true, true_and, not_true_eq_false,
      false_and, or_false, not_and, not_exists]
    have hkept : ∀ c ∈ cs, ((HasResult regex G c →
        (o ∈ denote regex G c ↔ ¬ Misjudged regex G o c)) ↔
        (HasResult regex G c → ¬ Misjudged regex G o c)) :=
      fun c hc => imp_congr_right fun h => iff_true_left (hall c hc h)
    rw [forall₂_congr hkept]
    by_cases hsome : ∃ c ∈ cs, HasResult regex G c <;> simp [hsome]
  · by_cases hsome : ∃ c ∈ cs, HasResult regex G c <;>
      simp [Kept, denote, hin, hsome]

theorem judged_or {cs : List (FilterOp D)} {o : Nat} (ih : ∀ c ∈ cs, Judged regex G o c) :
    Judged regex G o (.or cs) := by
  have hafter : ∀ d ∈ afterLastVoid cs, Judged regex G o d :=
    fun d hd => ih d (afterLastVoid_subset hd)
  rw [Judged, calcBitmap_of_not_void rfl, calcSelfBitmap, mem_calcConds_or, Misjudged]
  simp only [BitmapPtr.elems_none, Finset.notMem_empty, false_and, false_or]
  by_cases hin : o ∈ denoteAny regex G cs
  · simp only [Kept, denote, hin, true_and, not_true_eq_false, false_and, or_false, true_iff,
      not_forall, not_not]
    exact exists_congr fun d => ⟨fun ⟨hd, h⟩ => ⟨hd, (hafter d hd).mp h⟩,
      fun ⟨hd, h⟩ => ⟨hd, (hafter d hd).mpr h⟩⟩
  · -- outside the set of every condition, it is found where it is misjudged
    have hout : ∀ d ∈ afterLastVoid cs, o ∉ denote regex G d :=
      fun d hd h => hin (mem_denoteAny.mpr ⟨d, afterLastVoid_subset hd, h⟩)
    simp only [Kept, denote, hin, false_and, not_false_eq_true, true_and, false_or, false_iff,
      not_not]
    refine exists_congr fun d => ⟨fun ⟨hd, h⟩ => ⟨hd, ?_⟩, fun ⟨hd, h⟩ => ⟨hd, ?_⟩⟩
    · exact not_not.mp fun hno => hout d hd (((hafter d hd).mp h).mpr hno)
    · exact (hafter d hd).mpr (iff_of_false (hout d hd) (not_not.mpr h))

/-- Every filter: what is found is what the set has, apart from misjudged records. -/
theorem judged (op : FilterOp D) (o : Nat) : Judged regex G o op := by
  induction op using FilterOp.induct with
  | h op ih =>
      cases op with
      | and ig cs =>
          match ig, cs with
          | true, cs => exact judged_and_present ih
          | false, [] => simp [Judged, Kept, Misjudged, denote, denoteAll, calcBitmap, accumulate,
              calcSelfBitmap, calcConds, FilterOp.isVoid]
          | false, first :: rest => exact judged_and ih
      | or cs => exact judged_or ih
      | must field conds depth => exact judged_must
      | mustNot field conds depth => exact judged_mustNot
      | range2d rangeOut field₀ field₁ x y radius => exact judged_range2d
      | range rangeOut field bounds =>
          exact judged_of_self (by rw [Misjudged]; exact id) fun _ => mem_makeRangeCopy
      | labelIn labels =>
          exact judged_of_self (by rw [Misjudged]; exact id) fun _ => mem_labelInBitmap
      | startsWith field value =>
          exact judged_of_self (by rw [Misjudged]; exact id) fun hv =>
            mem_makeFieldPrefixCopy.trans (and_iff_right (of_decide_eq_false hv)).symm
      | contains field substring =>
          exact judged_of_self (by rw [Misjudged]; exact id) fun hv =>
            mem_makeFieldContainsCopy.trans (and_iff_right (of_decide_eq_false hv)).symm
      | regex field pattern =>
          exact judged_of_self (by rw [Misjudged]; exact id) fun hv =>
            mem_makeFieldRegexCopy.trans (and_iff_right (of_decide_eq_false hv)).symm

variable (regex G)

/-- A filter is evaluated to its set iff no record is misjudged. -/
theorem calcBitmap_exact_iff (op : FilterOp D) :
    (∀ o, o ∈ (calcBitmap regex G op).elems ↔ o ∈ denote regex G op) ↔
      ∀ o, ¬ Misjudged regex G o op := by
  refine forall_congr' fun o => ?_
  rw [show o ∈ (calcBitmap regex G op).elems ↔ _ from judged op o, Kept]
  tauto

end

/-! ## Misjudged records -/

namespace Sample

/-- A field in which record 0 has the given key. -/
def oneKey (key : String) (dir : Option DirIndex) : FieldBitmapGroup Int :=
  ⟨AList.singleton key.toList (Bitmap.ofSet {0}), none, dir, 1⟩

/-- A numeric field in which record 0 has the value 0. -/
def zero : FieldBitmapGroup Int :=
  ⟨∅, some ⟨[⟨[(0, 0)], by decide, by decide⟩], [some 0], by simp⟩, none, 1⟩

/-- One record, red, at `/a/b` and at the origin. -/
def red : FieldBitmapGroupSet Int where
  groups := (((AList.singleton "color".toList (oneKey "red" none)).insert "uri".toList
    (oneKey "/a/b" (some (DirIndex.empty.addKey "/a/b".toList)))).insert
      "x".toList zero).insert "y".toList zero
  elementSize := 1
  converter := none

def isRed : FilterOp Int := .must "color".toList ["red".toList] (-1)

def hasNoColor : FilterOp Int := .must "color".toList [] (-1)

def notBelowA : FilterOp Int := .mustNot "uri".toList ["/a".toList] (-1)

def notBlue : FilterOp Int := .mustNot "color".toList ["blue".toList] (-1)

/-- Away from the origin -/
def outside : FilterOp Int := .range2d true "x".toList "y".toList 0 0 1

/-- `{"op": "range_out", "field": ["x", "y"], "center": [0, 0], "radius": 1}` -/
def outsideJson : Json Int :=
  .obj [.mk "op".toList (text "range_out"), .mk "field".toList (.arr [text "x", text "y"]),
    .mk "center".toList (.arr [.int 0, .int 0]), .mk "radius".toList (.int 1)]

def noRegex : Str → Option (Str → Bool) := fun _ => none

theorem color_not_path : red.isPathFieldName "color".toList = false := by decide +kernel

theorem mem_isRed {o : Nat} : o ∈ denote noRegex red isRed ↔ o = 0 := by
  have hcopy : (red.makeFieldCopy "color".toList ["red".toList]).elems = {0} := by decide +kernel
  rw [isRed, denote, leafSet, mustSet, color_not_path, if_neg Bool.false_ne_true,
    ← FieldBitmapGroupSet.mem_makeFieldCopy, hcopy, Finset.mem_singleton]

theorem zero_notMem_notBelowA : 0 ∉ denote noRegex red notBelowA := by
  rintro ⟨-, h⟩
  rw [mustSet, if_pos (by decide +kernel)] at h
  refine h ⟨"/a/b".toList, Bitmap.ofSet {0}, ⟨"/a".toList, List.mem_singleton_self _,
    ["b".toList], by decide +kernel, .inl rfl⟩, by rfl, Finset.mem_singleton_self 0⟩

/-- An `or` forgets what stands before a condition without values, an `and`
keeps a record below an excluded path unless the exclusion comes first, and
`range_out` keeps the record in the circle. -/
theorem misjudged :
    (parseFilterJsonDoc (logicJson "or" [fieldJson "must" "color" ["red"],
        fieldJson "must" "color" []]) = some (.or [isRed, hasNoColor]) ∧
      0 ∈ denote noRegex red (.or [isRed, hasNoColor]) ∧
      0 ∉ (calcBitmap noRegex red (.or [isRed, hasNoColor])).elems ∧
      0 ∈ (calcBitmap noRegex red (.or [hasNoColor, isRed])).elems) ∧
    (parseFilterJsonDoc (logicJson "and" [fieldJson "must" "color" ["red"],
        fieldJson "must_not" "uri" ["/a"]]) = some (.and false [isRed, notBelowA]) ∧
      0 ∉ denote noRegex red (.and false [isRed, notBelowA]) ∧
      0 ∈ (calcBitmap noRegex red (.and false [isRed, notBelowA])).elems ∧
      0 ∉ (calcBitmap noRegex red (.and false [notBelowA, isRed])).elems) ∧
    (parseFilterJsonDoc outsideJson = some outside ∧
      0 ∉ denote noRegex red outside ∧ 0 ∈ (calcBitmap noRegex red outside).elems) := by
  have hcircle : 0 ∈ (calcBitmap noRegex red outside).elems := by decide +kernel
  refine ⟨⟨rfl, ?_, by decide +kernel, by decide +kernel⟩,
    ⟨rfl, ?_, by decide +kernel, by decide +kernel⟩, ⟨rfl, ?_, hcircle⟩⟩
  · exact mem_denoteAny.mpr ⟨isRed, List.mem_cons_self, mem_isRed.mpr rfl⟩
  · intro h
    exact zero_notMem_notBelowA (mem_denoteAll.mp h notBelowA (by simp))
  · exact fun h => h.2 (mem_makeRange2dCopy.mp hcircle).2

/-- `color` is not a path, and the only record is in the index. -/
theorem not_misjudged_isRed_notBlue (o : Nat) :
    ¬ Misjudged noRegex red o (.and false [isRed, notBlue]) := by
  have hred : ¬ Misjudged noRegex red o isRed := by
    rw [isRed, Misjudged, color_not_path]
    exact fun h => Bool.false_ne_true h.1
  rw [Misjudged]
  rintro (⟨-, h | ⟨c, hc, hnot, -⟩⟩ | ⟨hout, hkept, hlater⟩)
  · exact hred h
  · cases List.mem_singleton.mp hc
    cases hnot
  · have hin : o ∈ denote noRegex red isRed := hkept.mpr hred
    have hblue : o ∉ red.keySet "color".toList (· ∈ ["blue".toList]) :=
      hlater notBlue List.mem_cons_self
    refine hout ⟨hin, ⟨(mem_isRed.mp hin).symm ▸ Nat.zero_lt_one, ?_⟩, trivial⟩
    rwa [mustSet, color_not_path]

theorem red_not_blue_exact :
    (∀ o, ¬ Misjudged noRegex red o (.and false [isRed, notBlue])) ∧
      ∀ o, o ∈ (calcBitmap noRegex red (.and false [isRed, notBlue])).elems ↔
        o ∈ denote noRegex red (.and false [isRed, notBlue]) :=
  ⟨not_misjudged_isRed_notBlue,
    (calcBitmap_exact_iff noRegex red _).mpr not_misjudged_isRed_notBlue⟩

end Sample

end OpenViking.Index
