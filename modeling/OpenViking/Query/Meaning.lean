/-
# `OpenViking.Query.Meaning` — when a compiled filter means its expression

The compiled filter, evaluated on the stored record, answers what the
expression says of the record exactly when the types of its fields allow its
conditions (`Evaluable`) and it is not misread (`Misread`).  Whether it is follows
from its conditions: all of them are evaluated, so one that is misread may be
outvoted, but an error is one of the whole.  What is misread:

  * an `Or` without conditions compiles to nothing, which every record matches,
    and an `Or` drops the conditions that say nothing (`blank`), such as `And []`;
  * on a path field `Eq` compares what counts of a path (`pathName`), so that
    spellings of one path are equal, and on a field with a list it looks for an item;
  * `Contains` and the bounds of a range are not brought to the stored form, so
    that a text of the scheme is not found and a bound may stand between a URI
    and its stored path;
  * paths are compared as texts, where a doubled slash counts.

Dates are not supported, nor is a URI field that is not a path field.
-/
import OpenViking.Query.Compile
import OpenViking.Lib.Results

namespace OpenViking.Query

open OpenViking.Lib

/-! ## Parts of an expression -/

namespace FilterExpr

/-- The conditions of a connective. -/
def conds : FilterExpr → List FilterExpr
  | and cs => cs
  | or cs => cs
  | _ => []

mutual

/-- Induction on expressions. -/
theorem induct {P : FilterExpr → Prop} (h : ∀ e : FilterExpr, (∀ c ∈ e.conds, P c) → P e) :
    ∀ e, P e
  | and cs => h _ (inductConds h cs)
  | or cs => h _ (inductConds h cs)
  | eq _ _ => h _ nofun
  | isIn _ _ => h _ nofun
  | range _ _ => h _ nofun
  | contains _ _ => h _ nofun
  | timeRange _ _ _ => h _ nofun
  | rawDsl _ => h _ nofun
  | pathScope _ _ _ => h _ nofun

theorem inductConds {P : FilterExpr → Prop}
    (h : ∀ e : FilterExpr, (∀ c ∈ e.conds, P c) → P e) :
    ∀ (cs : List FilterExpr), ∀ c ∈ cs, P c
  | [], _, hc => nomatch hc
  | c :: cs, d, hd =>
      match List.mem_cons.mp hd with
      | .inl e => e ▸ induct h c
      | .inr hd => inductConds h cs d hd

end

/-- `part` occurs in the expression. -/
inductive Part : FilterExpr → FilterExpr → Prop
  | self (e : FilterExpr) : Part e e
  | cond {part c e : FilterExpr} (hc : c ∈ e.conds) (h : Part part c) : Part part e

/-- A property of every part, seen from the top. -/
theorem forall_part_iff {P : FilterExpr → Prop} {e : FilterExpr} :
    (∀ part, Part part e → P part) ↔ P e ∧ ∀ c ∈ e.conds, ∀ part, Part part c → P part := by
  constructor
  · intro h
    exact ⟨h e (.self e), fun c hc part hp => h part (.cond hc hp)⟩
  · rintro ⟨he, hcs⟩ part hp
    cases hp with
    | self => exact he
    | cond hc hp => exact hcs _ hc _ hp

mutual

/-- The expression says nothing: connectives around nothing. -/
def blank : FilterExpr → Bool
  | and conds => allBlank conds
  | or conds => allBlank conds
  | rawDsl payload => payload.isEmpty
  | _ => false

def allBlank : List FilterExpr → Bool
  | [] => true
  | c :: conds => blank c && allBlank conds

end

theorem allBlank_eq (conds : List FilterExpr) : allBlank conds = conds.all blank := by
  induction conds with
  | nil => rfl
  | cons c conds ih => rw [allBlank, ih, List.all_cons]

/-- Not a node of the store's language, and `In` only on fields without URIs. -/
def Plain : FilterExpr → Prop
  | rawDsl _ => False
  | isIn field _ => isUriField field = false
  | _ => True

end FilterExpr

/-- A connective compiles to nothing when all its conditions do. -/
theorem isEmpty_combine {op : List Dsl → Dsl} (hop : ∀ conds, (op conds).isEmpty = false)
    (conds : List Dsl) : (Dsl.combine op conds).isEmpty = conds.all Dsl.isEmpty := by
  rw [Bool.eq_iff_iff, List.all_eq_true]
  have hkept : ∀ c ∈ conds.filter fun c => !c.isEmpty, c ∈ conds ∧ c.isEmpty = false := by
    intro c hc
    simpa using hc
  unfold Dsl.combine
  cases hfilter : conds.filter fun c => !c.isEmpty with
  | nil =>
      refine iff_of_true rfl fun c hc => ?_
      simpa using List.filter_eq_nil_iff.mp hfilter c hc
  | cons c rest =>
      obtain ⟨hc, hempty⟩ := hkept c (hfilter ▸ List.mem_cons_self)
      refine iff_of_false ?_ fun hall => by simp [hall c hc] at hempty
      cases rest with
      | nil => simp [hempty]
      | cons d rest => simp [hop]

/-- What compiles to nothing is what says nothing. -/
theorem isEmpty_compileFilter (e : FilterExpr) : (compileFilter e).isEmpty = e.blank := by
  induction e using FilterExpr.induct with
  | h e ih =>
      have hall : ∀ conds : List FilterExpr, (∀ c ∈ conds, (compileFilter c).isEmpty = c.blank) →
          (conds.map compileFilter).all Dsl.isEmpty = FilterExpr.allBlank conds := by
        intro conds h
        rw [FilterExpr.allBlank_eq, List.all_map, Bool.eq_iff_iff, List.all_eq_true,
          List.all_eq_true]
        exact forall₂_congr fun c hc => by rw [Function.comp_apply, h c hc]
      cases e with
      | and conds =>
          rw [compileFilter, compileAll_eq, isEmpty_combine fun _ => rfl, hall conds ih,
            FilterExpr.blank]
      | or conds =>
          rw [compileFilter, compileAll_eq, isEmpty_combine fun _ => rfl, hall conds ih,
            FilterExpr.blank]
      | rawDsl payload => cases payload <;> rfl
      | _ => rfl

/-! ## Values in lists -/

namespace Value

mutual

/-- How deep lists are nested in a value. -/
def height : Value → Nat
  | list items => heightAll items + 1
  | _ => 0

def heightAll : List Value → Nat
  | [] => 0
  | item :: items => max item.height (heightAll items)

end

mutual

theorem height_eq_of_same : ∀ {a b : Value}, a.same b = true → a.height = b.height
  | .none, b, h => by cases b <;> simp_all [same, number, height]
  | .bool _, b, h => by cases b <;> simp_all [same, number, height]
  | .num _, b, h => by cases b <;> simp_all [same, number, height]
  | .str _, b, h => by cases b <;> simp_all [same, number, height]
  | .list as, .list bs, h => by
      rw [same] at h
      rw [height, height, heightAll_eq_of_sameAll h]
  | .list _, .none, h => by simp [same, number] at h
  | .list _, .bool _, h => by simp [same, number] at h
  | .list _, .num _, h => by simp [same, number] at h
  | .list _, .str _, h => by simp [same, number] at h

theorem heightAll_eq_of_sameAll :
    ∀ {as bs : List Value}, sameAll as bs = true → heightAll as = heightAll bs
  | [], [], _ => rfl
  | a :: as, b :: bs, h => by
      rw [sameAll, Bool.and_eq_true] at h
      rw [heightAll, heightAll, height_eq_of_same h.1, heightAll_eq_of_sameAll h.2]
  | [], _ :: _, h => by simp [sameAll] at h
  | _ :: _, [], h => by simp [sameAll] at h

end

theorem height_le_heightAll {item : Value} {items : List Value} (h : item ∈ items) :
    item.height ≤ heightAll items := by
  induction items with
  | nil => cases h
  | cons a items ih =>
      rw [heightAll]
      rcases List.mem_cons.mp h with rfl | h
      · exact Nat.le_max_left _ _
      · exact (ih h).trans (Nat.le_max_right _ _)

/-- A list is not one of its items. -/
theorem not_same_list_of_same_item {items : List Value} {value : Value}
    (hitem : items.any value.same = true) : (list items).same value = false := by
  by_contra h
  obtain ⟨item, hmem, hsame⟩ := List.any_eq_true.mp hitem
  have hlist := height_eq_of_same (eq_true_of_ne_false h)
  have := height_le_heightAll hmem
  rw [height, height_eq_of_same hsame] at hlist
  omega

/-- A list matches a value only by its items. -/
theorem valueMatches_singleton_iff {v value : Value} :
    v.valueMatches [value] = v.same value ↔
      ∀ items, v = list items → items.any value.same = false ∧ (list items).same value = false := by
  cases v with
  | list items =>
      simp only [valueMatches, List.any_cons, List.any_nil, Bool.or_false, list.injEq]
      constructor
      · rintro h items rfl
        cases hitem : items.any value.same with
        | true =>
            rw [hitem, not_same_list_of_same_item hitem] at h
            cases h
        | false => exact ⟨rfl, h.symm.trans hitem⟩
      · intro h
        rw [(h items rfl).1, (h items rfl).2]
  | _ => simp [valueMatches]

end Value

/-! ## Paths as texts and as components -/

theorem segments_pathText (value : Str) :
    segments '/' (pathText value) = segments '/' (strip value) := by
  have hnormal : segments '/' (normalizePath value) = segments '/' (strip value) := by
    unfold normalizePath
    extract_lets stripped
    split
    · rfl
    · exact segments_cons_self _
  unfold pathText
  extract_lets path
  split
  · next hnil =>
      have := segments_trimEnd (c := '/') (normalizePath value)
      rw [show trimEnd '/' (normalizePath value) = [] from hnil, segments_nil] at this
      rw [← hnormal, ← this]
      decide
  · rw [segments_trimEnd, hnormal]

/-- A path that continues the text of another lies below it by its components. -/
theorem exists_rest_of_relativeDepth {value expected : Str} {n : Nat}
    (h : relativeDepth (pathText value) (pathText expected) = some n) :
    ∃ rest, segments '/' (strip value) = segments '/' (strip expected) ++ rest ∧
      rest.length = n := by
  rw [← segments_pathText value, ← segments_pathText expected]
  unfold relativeDepth at h
  split at h
  · next heq => exact ⟨[], by rw [heq, List.append_nil], Option.some.inj h⟩
  · split at h
    · next hroot =>
        refine ⟨segments '/' (pathText value), ?_, Option.some.inj h⟩
        have : segments '/' ['/'] = [] := by decide
        rw [hroot, this, List.nil_append]
    · split at h
      · next hpre =>
          obtain ⟨tail, htail⟩ := hpre
          rw [List.append_assoc] at htail
          refine ⟨segments '/' tail, ?_, ?_⟩
          · rw [← htail]
            exact segments_append_cons _ _
          · have hdrop := Option.some.inj h
            rwa [← htail, ← List.append_assoc, List.drop_left' (by simp)] at hdrop
      · cases h

/-- What counts of the text of a path: not the white space around it, one slash in front of it
and the slashes at its end. -/
def bare (path : Str) : Str :=
  match strip path with
  | '/' :: rest => trimEnd '/' rest
  | rest => trimEnd '/' rest

/-- The text goes on from the other with a slash, or is the other; everything goes on from
nothing. -/
def Continues (path text : Str) : Prop := path = [] ∨ text = path ∨ path ++ ['/'] <+: text

theorem continues_self (path : Str) : Continues path path := .inr (.inl rfl)

theorem getLast?_bare (path : Str) : (bare path).getLast? ≠ some '/' := by
  unfold bare
  split <;> exact trimEnd_getLast? '/' _

theorem trimEnd_cons_self (s : Str) :
    trimEnd '/' ('/' :: s) = if trimEnd '/' s = [] then [] else '/' :: trimEnd '/' s := by
  induction s using List.reverseRecOn with
  | nil => rfl
  | append_singleton s x ih =>
      unfold trimEnd at ih ⊢
      rw [← List.cons_append]
      by_cases hx : (x == '/') = true
      · rw [List.rdropWhile_concat_pos (· == '/') _ _ hx,
          List.rdropWhile_concat_pos (· == '/') _ _ hx, ih]
      · rw [List.rdropWhile_concat_neg (· == '/') _ _ hx,
          List.rdropWhile_concat_neg (· == '/') _ _ hx]
        simp

theorem pathText_eq (path : Str) : pathText path = '/' :: bare path := by
  have hnormal : ∃ rest, normalizePath path = '/' :: rest ∧ bare path = trimEnd '/' rest := by
    unfold normalizePath bare
    extract_lets stripped
    split
    · next hslash =>
        obtain ⟨rest, hrest⟩ := hslash
        refine ⟨rest, hrest.symm, ?_⟩
        change (match stripped with | '/' :: rest => _ | rest => _) = _
        rw [← hrest]
        rfl
    · next hslash =>
        refine ⟨stripped, rfl, ?_⟩
        split
        · next rest heq => exact absurd ⟨rest, heq.symm⟩ hslash
        · rfl
  obtain ⟨rest, hrest, hbare⟩ := hnormal
  unfold pathText
  rw [hrest, hbare, trimEnd_cons_self]
  split <;> simp_all

/-- Where the texts continue one another, the two comparisons agree. -/
theorem depthAllows_iff_within {value expected : Str} {n : Nat} {depth : Int}
    (h : relativeDepth (pathText value) (pathText expected) = some n) :
    depthAllows (some depth) n =
      within depth (segments '/' (strip expected)) (segments '/' (strip value)) := by
  obtain ⟨rest, hrest, rfl⟩ := exists_rest_of_relativeDepth h
  rw [within, hrest, depthAllows]
  simp

/-- A text that has no components and no slash at its end is empty. -/
theorem eq_nil_of_segments_eq_nil {s : Str} (h : segments '/' s = [])
    (hlast : s.getLast? ≠ some '/') : s = [] := by
  by_contra hne
  have hmem := List.getLast_mem hne
  by_cases hslash : s.getLast hne = '/'
  · exact hlast (hslash ▸ List.getLast?_eq_some_getLast hne)
  · obtain ⟨seg, hseg, -⟩ := exists_mem_segments hmem hslash
    rw [h] at hseg
    cases hseg

theorem isSome_relativeDepth_iff {value expected : Str} :
    (relativeDepth (pathText value) (pathText expected)).isSome = true ↔
      Continues (bare expected) (bare value) := by
  rw [pathText_eq, pathText_eq]
  unfold relativeDepth Continues
  simp only [List.cons.injEq, true_and, List.cons_append, List.cons_prefix_cons]
  split
  · next heq => simp [heq]
  · next hne =>
      split
      · next hroot => simp [hroot]
      · next hroot =>
          split
          · next hpre => simp [hpre]
          · next hpre => simp [hne, hroot, hpre]

/-- At no distance are only the spellings of one path. -/
theorem relativeDepth_eq_zero_iff {value expected : Str} :
    relativeDepth (pathText value) (pathText expected) = some 0 ↔ bare value = bare expected := by
  rw [pathText_eq, pathText_eq]
  have hlast := getLast?_bare value
  unfold relativeDepth
  simp only [List.cons.injEq, true_and, List.cons_append, List.cons_prefix_cons]
  split
  · next heq => simp [heq]
  · next hne =>
      refine iff_of_false ?_ hne
      split
      · next hroot =>
          intro hzero
          have hnil := List.length_eq_zero_iff.mp (Option.some.inj hzero)
          rw [segments_cons_self] at hnil
          exact hne (eq_nil_of_segments_eq_nil hnil hlast ▸ hroot.symm)
      · split
        · next hpre =>
            obtain ⟨tail, htail⟩ := hpre
            rw [← htail, List.append_assoc, List.singleton_append]
            intro hzero
            have hnil : segments '/' ('/' :: tail) = [] := by
              rw [segments_cons_self]
              refine List.length_eq_zero_iff.mp ?_
              simpa using hzero
            rw [← htail, List.append_assoc, List.singleton_append,
              List.getLast?_append_cons] at hlast
            cases eq_nil_of_segments_eq_nil hnil hlast
        · exact fun h => nomatch h

theorem pathMatches_str (value expected : Str) (depth : Option Int) :
    pathMatches (.str value) (.str expected) depth =
      (relativeDepth (pathText value) (pathText expected)).any (depthAllows depth) := by
  simp only [pathMatches]
  cases relativeDepth (pathText value) (pathText expected) <;> rfl

theorem pathMatches_zero_iff {value expected : Str} :
    pathMatches (.str value) (.str expected) (some 0) = true ↔ bare value = bare expected := by
  rw [pathMatches_str, Option.any_eq_true, ← relativeDepth_eq_zero_iff]
  constructor
  · rintro ⟨n, hn, hzero⟩
    have : n = 0 := by simpa [depthAllows] using hzero
    rwa [this] at hn
  · exact fun h => ⟨0, h, rfl⟩

theorem pathMatches_none_iff {value expected : Str} :
    pathMatches (.str value) (.str expected) none = true ↔
      Continues (bare expected) (bare value) := by
  rw [pathMatches_str, ← isSome_relativeDepth_iff, Option.any_eq_true, Option.isSome_iff_exists]
  exact exists_congr fun n => and_iff_left rfl

/-- The texts may fail to continue one another where the components do, never the other way
round. -/
theorem pathMatches_eq_within_iff {value path : Str} {depth : Int} :
    pathMatches (.str value) (.str path) (some depth) =
        within depth (segments '/' (strip path)) (segments '/' (strip value)) ↔
      (within depth (segments '/' (strip path)) (segments '/' (strip value)) = true →
        Continues (bare path) (bare value)) := by
  rw [← isSome_relativeDepth_iff, pathMatches_str]
  cases hrel : relativeDepth (pathText value) (pathText path) with
  | none =>
      simp only [Option.any_none, Option.isSome_none, Bool.false_eq_true, imp_false,
        Bool.not_eq_true]
      exact eq_comm
  | some n => exact iff_of_true (depthAllows_iff_within hrel) fun _ => rfl

/-! ## Ranges of texts -/

namespace Bounds

variable (bounds : Bounds)

/-- Where there is a bound, it is a text. -/
def OfTexts : Prop :=
  ∀ bound ∈ [bounds.gte, bounds.gt, bounds.lte, bounds.lt], bound = .none ∨ ∃ s, bound = .str s

/-- The text lies below the range. -/
def Below (text : Str) : Prop :=
  (∃ s, bounds.gte = .str s ∧ text < s) ∨ ∃ s, bounds.gt = .str s ∧ text ≤ s

/-- The text lies above the range. -/
def Above (text : Str) : Prop :=
  (∃ s, bounds.lte = .str s ∧ s < text) ∨ ∃ s, bounds.lt = .str s ∧ s ≤ text

/-- The range has both texts, the smaller first, or neither: it lies below both or above both,
or the one is below it exactly when the other is above it. -/
def Unites (low high : Str) : Prop :=
  bounds.OfTexts → ¬ bounds.Above low → ¬ bounds.Below high → (bounds.Below low ↔ bounds.Above high)

variable {bounds}

theorem inRange_str {text : Str} :
    bounds.inRange (.str text) = true ↔
      bounds.OfTexts ∧ ¬ bounds.Below text ∧ ¬ bounds.Above text := by
  -- a bound that is not a text cannot be compared, and the comparison fails
  have hgt : (bounds.gt.isNone || bounds.gt.less (.str text) == some true) = true ↔
      (bounds.gt = .none ∨ ∃ s, bounds.gt = .str s) ∧ ¬ ∃ s, bounds.gt = .str s ∧ text ≤ s := by
    cases bounds.gt <;> simp [Value.isNone, Value.less, Value.number]
  have hgte : (bounds.gte.isNone || (Value.str text).less bounds.gte == some false) = true ↔
      (bounds.gte = .none ∨ ∃ s, bounds.gte = .str s) ∧
        ¬ ∃ s, bounds.gte = .str s ∧ text < s := by
    cases bounds.gte <;> simp [Value.isNone, Value.less, Value.number]
  have hlt : (bounds.lt.isNone || (Value.str text).less bounds.lt == some true) = true ↔
      (bounds.lt = .none ∨ ∃ s, bounds.lt = .str s) ∧ ¬ ∃ s, bounds.lt = .str s ∧ s ≤ text := by
    cases bounds.lt <;> simp [Value.isNone, Value.less, Value.number]
  have hlte : (bounds.lte.isNone || bounds.lte.less (.str text) == some false) = true ↔
      (bounds.lte = .none ∨ ∃ s, bounds.lte = .str s) ∧
        ¬ ∃ s, bounds.lte = .str s ∧ s < text := by
    cases bounds.lte <;> simp [Value.isNone, Value.less, Value.number]
  have hnone : (Value.str text).isNone = false := rfl
  unfold inRange OfTexts Below Above
  simp only [hnone, Bool.not_false, Bool.true_and, Bool.and_eq_true, hgt, hgte, hlt, hlte,
    List.forall_mem_cons, List.not_mem_nil, false_imp_iff, implies_true, and_true, not_or]
  constructor
  · rintro ⟨⟨⟨⟨tgt, ngt⟩, tgte, ngte⟩, tlt, nlt⟩, tlte, nlte⟩
    exact ⟨⟨tgte, tgt, tlte, tlt⟩, ⟨ngte, ngt⟩, nlte, nlt⟩
  · rintro ⟨⟨tgte, tgt, tlte, tlt⟩, ⟨ngte, ngt⟩, nlte, nlt⟩
    exact ⟨⟨⟨⟨tgt, ngt⟩, tgte, ngte⟩, tlt, nlt⟩, tlte, nlte⟩

theorem Below.mono {low high : Str} (hle : low ≤ high) (h : bounds.Below high) :
    bounds.Below low := by
  rcases h with ⟨s, hs, hlt⟩ | ⟨s, hs, hlt⟩
  · exact .inl ⟨s, hs, hle.trans_lt hlt⟩
  · exact .inr ⟨s, hs, hle.trans hlt⟩

theorem Above.mono {low high : Str} (hle : low ≤ high) (h : bounds.Above low) :
    bounds.Above high := by
  rcases h with ⟨s, hs, hlt⟩ | ⟨s, hs, hlt⟩
  · exact .inl ⟨s, hs, hlt.trans_le hle⟩
  · exact .inr ⟨s, hs, hlt.trans hle⟩

theorem inRange_eq_iff_unites {low high : Str} (hle : low ≤ high) :
    bounds.inRange (.str low) = bounds.inRange (.str high) ↔ bounds.Unites low high := by
  rw [Bool.eq_iff_iff, inRange_str, inRange_str]
  have hbelow : bounds.Below high → bounds.Below low := Below.mono hle
  have habove : bounds.Above low → bounds.Above high := Above.mono hle
  unfold Unites
  by_cases hout : ¬ bounds.OfTexts ∨ bounds.Above low ∨ bounds.Below high
  · -- neither is in the range
    refine iff_of_true (iff_of_false ?_ ?_) ?_ <;> tauto
  · simp only [not_or, not_not] at hout
    simp [hout, not_iff_not]

theorem inRange_eq_iff_unites_min_max {a b : Str} :
    bounds.inRange (.str a) = bounds.inRange (.str b) ↔ bounds.Unites (min a b) (max a b) := by
  rcases le_total a b with hle | hle
  · rw [min_eq_left hle, max_eq_right hle, inRange_eq_iff_unites hle]
  · rw [min_eq_right hle, max_eq_left hle, eq_comm, inRange_eq_iff_unites hle]

end Bounds

/-! ## Agreement -/

section

variable (fieldTypes : Str → FieldKind) (raw : Dsl → Bool) (record : Record)

/-- The compiled expression, on the stored record, answers what the expression says. -/
def Exact (e : FilterExpr) : Prop :=
  matchesFilter fieldTypes (normalizeRecordForWrite record) (compileFilter e) =
    .ok (e.holds raw record)

/-- The field's type is one the backend can filter. -/
def Supported (field : Str) : Prop := fieldTypes field = .path ∨ fieldTypes field = .other

/-- What counts of a path in the given field. -/
def pathName (field path : Str) : Str := bare (if isUriField field then encodeUri path else path)

/-- `Eq` on a path field: the texts are the same, or they are not spellings of one path; without
a depth the one does not even lie below the other. -/
def SpelledAlike (field : Str) : Value → Value → Prop
  | .str value, .str expected =>
      value = expected ∨
        if isUriField field then pathName field value ≠ pathName field expected
        else ¬ Continues (pathName field expected) (pathName field value)
  | value, expected => value.same expected = false

/-- `In` on a path field that holds no URI: the text is among the values, or lies below none. -/
def SpelledAmong (field : Str) (values : List Value) : Value → Prop
  | .str value => .str value ∈ values ∨
      ∀ expected, .str expected ∈ values →
        ¬ Continues (pathName field expected) (pathName field value)
  | .list items => ∀ expected ∈ values, ∀ item ∈ items, expected.same item = false
  | value => ∀ expected ∈ values, value.same expected = false

/-- `path` is the text of the URI after its scheme, without the slashes around it. -/
def Names (uri path : Str) : Prop :=
  ∃ rest, strip uri = scheme ++ rest ∧ path = stripBy (· == '/') rest

/-- On a field with URIs the range has the URI and its path, or neither. -/
def InRangeAlike (field : Str) (bounds : Bounds) : Prop :=
  isUriField field = true → ∀ uri path, record field = .str uri → Names uri path →
    bounds.Unites (min ('/' :: path) uri) (max ('/' :: path) uri)

/-- The backend can evaluate the condition, as far as it depends on the type of the field. -/
def Evaluable : FilterExpr → Prop
  | .eq field _ =>
      fieldTypes field = .path ∨ (fieldTypes field = .other ∧ isUriField field = false)
  | .isIn field _ => Supported fieldTypes field
  | .pathScope field _ _ => fieldTypes field = .path
  | .contains field _ => Supported fieldTypes field
  | .range field _ => Supported fieldTypes field
  | .timeRange field _ _ => Supported fieldTypes field
  | _ => True

/-- The condition on a field says of the stored record what it says of the record. -/
def Agrees : FilterExpr → Prop
  | .eq field value =>
      if fieldTypes field = .path then SpelledAlike field (record field) value
      else ∀ items, record field = .list items →
        items.any value.same = false ∧ (Value.list items).same value = false
  | .isIn field values => fieldTypes field = .path → SpelledAmong field values (record field)
  | .pathScope field path depth => ∀ value, record field = .str value →
      within depth (fieldComponents field path) (fieldComponents field value) = true →
      Continues (pathName field path) (pathName field value)
  | .contains field substring =>
      isUriField field = true → ∀ uri path, record field = .str uri → Names uri path →
        substring <:+: uri → substring <:+: '/' :: path
  | .range field bounds => InRangeAlike record field bounds
  | .timeRange field start stop => InRangeAlike record field ⟨start, .none, .none, stop⟩
  | _ => True

/-- The expression holds of the record and its filter refuses the record, or the other way
round. -/
def Misread : FilterExpr → Prop
  -- refused by a condition that holds; or accepted by all, though not by right
  | .and conds =>
      ((∀ c ∈ conds, c.holds raw record = true) ∧ ∃ c, ∃ _ : c ∈ conds, Misread c) ∨
      ((∃ c ∈ conds, c.holds raw record = false) ∧
        ∀ c, (_ : c ∈ conds) → (c.holds raw record = true ↔ ¬ Misread c))
  -- nothing is asked; or only those conditions that say something are
  | .or conds =>
      if ∀ c ∈ conds, c.blank = true then ∀ c ∈ conds, c.holds raw record = false
      else
        ((∃ c ∈ conds, c.holds raw record = true) ∧
          ∀ c, (_ : c ∈ conds) → c.blank = false → (c.holds raw record = true ↔ Misread c)) ∨
        ((∀ c ∈ conds, c.holds raw record = false) ∧
          ∃ c, ∃ _ : c ∈ conds, c.blank = false ∧ Misread c)
  | e => ¬ Agrees fieldTypes record e
termination_by e => sizeOf e
decreasing_by
  all_goals
    have hlt := List.sizeOf_lt_of_mem ‹_ ∈ _›
    simp only [FilterExpr.and.sizeOf_spec, FilterExpr.or.sizeOf_spec]
    omega

end

section

variable {fieldTypes : Str → FieldKind} {raw : Dsl → Bool} {record : Record}

/-! ### Connectives -/

theorem matchesFilter_and (conds : List Dsl) :
    matchesFilter fieldTypes record (.and conds) =
      (matchesAll fieldTypes record conds).map (List.all · id) := by
  rw [matchesFilter]
  cases matchesAll fieldTypes record conds <;> rfl

theorem matchesFilter_or (conds : List Dsl) :
    matchesFilter fieldTypes record (.or conds) =
      (matchesAll fieldTypes record conds).map (List.any · id) := by
  rw [matchesFilter]
  cases matchesAll fieldTypes record conds <;> rfl

/-- What says nothing matches every record. -/
theorem matchesFilter_of_isEmpty {node : Dsl} (h : node.isEmpty = true) :
    matchesFilter fieldTypes record node = .ok true := by
  cases node with
  | empty => rfl
  | _ => simp [Dsl.isEmpty] at h

theorem exists_ok_of_matchesAll {conds : List Dsl} {bs : List Bool}
    (h : matchesAll fieldTypes record conds = .ok bs) :
    ∀ c ∈ conds, ∃ b, matchesFilter fieldTypes record c = .ok b := by
  induction conds generalizing bs with
  | nil => simp
  | cons c conds ih =>
      rw [matchesAll] at h
      obtain ⟨b, hb, h⟩ := bind_eq_ok.mp h
      obtain ⟨rest, hrest, -⟩ := bind_eq_ok.mp h
      exact List.forall_mem_cons.mpr ⟨⟨b, hb⟩, ih hrest⟩

/-- All conditions of a connective are evaluated: if it has an answer, they have one. -/
theorem exists_ok_of_combine {op : List Dsl → Dsl} {fold : List Bool → Bool}
    (hop : ∀ conds, matchesFilter fieldTypes record (op conds) =
      (matchesAll fieldTypes record conds).map fold) {conds : List Dsl} {b : Bool}
    (h : matchesFilter fieldTypes record (Dsl.combine op conds) = .ok b) :
    ∀ c ∈ conds, ∃ b, matchesFilter fieldTypes record c = .ok b := by
  intro c hc
  by_cases hempty : c.isEmpty = true
  · exact ⟨true, matchesFilter_of_isEmpty hempty⟩
  · have hmem : c ∈ conds.filter fun c => !c.isEmpty := by simp [hc, hempty]
    unfold Dsl.combine at h
    split at h
    · next hnil => simp [hnil] at hmem
    · next d hone =>
        rw [hone, List.mem_singleton] at hmem
        exact ⟨b, hmem ▸ h⟩
    · rw [hop] at h
      cases hall : matchesAll fieldTypes record (conds.filter fun c => !c.isEmpty) with
      | error e =>
          rw [hall] at h
          cases h
      | ok bs => exact exists_ok_of_matchesAll hall c hmem

theorem mem_kept {conds : List FilterExpr} {c : FilterExpr} :
    c ∈ kept compileFilter conds ↔ c ∈ conds ∧ c.blank = false := by
  simp [kept, isEmpty_compileFilter]

theorem kept_eq_nil_iff {conds : List FilterExpr} :
    kept compileFilter conds = [] ↔ ∀ c ∈ conds, c.blank = true := by
  simp [kept, isEmpty_compileFilter]

/-- The filter, where it gives an answer, accepts the record: the expression holds, or does not
and is misread. -/
def Admits (fieldTypes : Str → FieldKind) (raw : Dsl → Bool) (record : Record)
    (e : FilterExpr) : Prop :=
  e.holds raw record = true ↔ ¬ Misread fieldTypes raw record e

theorem admits_and_iff {conds : List FilterExpr} :
    Admits fieldTypes raw record (.and conds) ↔
      ∀ c ∈ conds, Admits fieldTypes raw record c := by
  unfold Admits
  rw [Misread, FilterExpr.holds_and, List.all_eq_true]
  by_cases hall : ∀ c ∈ conds, c.holds raw record = true
  · have hsome : ¬ ∃ c ∈ conds, c.holds raw record = false := by
      rintro ⟨c, hc, hfalse⟩
      simp [hall c hc] at hfalse
    rw [iff_true_left hall, and_iff_right hall, or_iff_left fun h => hsome h.1]
    simp only [not_exists]
    exact forall₂_congr fun c hc => (iff_true_left (hall c hc)).symm
  · have hsome : ∃ c ∈ conds, c.holds raw record = false := by simpa using hall
    rw [iff_false_left hall, not_not, and_iff_right hsome, or_iff_right fun h => hall h.1]

theorem admits_or_iff {conds : List FilterExpr} :
    Admits fieldTypes raw record (.or conds) ↔
      (∀ c ∈ conds, c.blank = true) ∨
        ∃ c ∈ conds, c.blank = false ∧ Admits fieldTypes raw record c := by
  have hnone : (¬ ∃ c ∈ conds, c.holds raw record = true) ↔
      ∀ c ∈ conds, c.holds raw record = false := by simp
  unfold Admits
  rw [Misread, FilterExpr.holds_or, List.any_eq_true]
  split
  · next hblank =>
      rw [← hnone, not_not]
      exact iff_of_true Iff.rfl (.inl hblank)
  · next hblank =>
      rw [or_iff_right hblank]
      by_cases hsome : ∃ c ∈ conds, c.holds raw record = true
      · -- it is misread if no condition that is asked accepts the record
        simp only [hsome, ← hnone, not_true_eq_false, true_and, false_and, or_false, true_iff,
          not_forall]
        refine exists_congr fun c => ?_
        rw [exists_prop, exists_prop]
        exact and_congr_right fun _ => and_congr_right fun _ => by tauto
      · simp only [hsome, false_and, false_or, false_iff, not_not]
        rw [and_iff_right (hnone.mp hsome)]
        refine exists_congr fun c => ?_
        rw [exists_prop]
        refine and_congr_right fun hc => and_congr_right fun _ => ?_
        simp [hnone.mp hsome c hc]

open Classical in
/-- A connective whose conditions answer `A`, where they can be evaluated (`P`). -/
theorem matchesFilter_combine_iff {op : List Dsl → Dsl} {fold : List Bool → Bool}
    (hop : ∀ conds, matchesFilter fieldTypes record (op conds) =
      (matchesAll fieldTypes record conds).map fold)
    (hone : ∀ b, fold [b] = b) {conds : List FilterExpr} {P A : FilterExpr → Prop}
    (h : ∀ c ∈ conds, ∀ b, matchesFilter fieldTypes record (compileFilter c) = .ok b ↔
      P c ∧ (b = true ↔ A c)) {b : Bool} :
    matchesFilter fieldTypes record (Dsl.combine op (conds.map compileFilter)) = .ok b ↔
      (∀ c ∈ conds, P c) ∧
        b = if kept compileFilter conds = [] then true
          else fold ((kept compileFilter conds).map fun c => decide (A c)) := by
  by_cases hP : ∀ c ∈ conds, P c
  · have hanswer : ∀ c ∈ conds, matchesFilter fieldTypes record (compileFilter c) =
        .ok (decide (A c)) := fun c hc => (h c hc _).mpr ⟨hP c hc, decide_eq_true_iff⟩
    rw [matchesFilter_combine hop hone hanswer, Except.ok.injEq, and_iff_right hP, eq_comm]
  · refine iff_of_false (fun hok => hP fun c hc => ?_) fun hall => hP hall.1
    obtain ⟨b', hb'⟩ := exists_ok_of_combine hop hok _ (List.mem_map_of_mem hc)
    exact ((h c hc b').mp hb').1

section

variable {conds : List FilterExpr} {P : FilterExpr → Prop} {b : Bool}

/-- What is dropped would have accepted the record. -/
theorem admits_of_blank {c : FilterExpr}
    (h : ∀ b, matchesFilter fieldTypes (normalizeRecordForWrite record) (compileFilter c) = .ok b ↔
      P c ∧ (b = true ↔ Admits fieldTypes raw record c)) (hblank : c.blank = true) :
    Admits fieldTypes raw record c := by
  rw [← isEmpty_compileFilter] at hblank
  exact ((h true).mp (matchesFilter_of_isEmpty hblank)).2.mp rfl

theorem matchesFilter_and_iff
    (h : ∀ c ∈ conds, ∀ b, matchesFilter fieldTypes (normalizeRecordForWrite record)
      (compileFilter c) = .ok b ↔ P c ∧ (b = true ↔ Admits fieldTypes raw record c)) :
    matchesFilter fieldTypes (normalizeRecordForWrite record) (compileFilter (.and conds)) = .ok b ↔
      (∀ c ∈ conds, P c) ∧ (b = true ↔ Admits fieldTypes raw record (.and conds)) := by
  rw [compileFilter, compileAll_eq, matchesFilter_combine_iff matchesFilter_and (by simp) h,
    admits_and_iff, Bool.eq_iff_iff]
  refine and_congr_right fun _ => iff_congr Iff.rfl ?_
  have hkept : (∀ c ∈ kept compileFilter conds, Admits fieldTypes raw record c) ↔
      ∀ c ∈ conds, Admits fieldTypes raw record c := by
    constructor
    · intro hall c hc
      cases hblank : c.blank with
      | true => exact admits_of_blank (h c hc) hblank
      | false => exact hall c (mem_kept.mpr ⟨hc, hblank⟩)
    · exact fun hall c hc => hall c (mem_kept.mp hc).1
  rw [← hkept]
  split
  · next hnil => simp [hnil]
  · simp

theorem matchesFilter_or_iff
    (h : ∀ c ∈ conds, ∀ b, matchesFilter fieldTypes (normalizeRecordForWrite record)
      (compileFilter c) = .ok b ↔ P c ∧ (b = true ↔ Admits fieldTypes raw record c)) :
    matchesFilter fieldTypes (normalizeRecordForWrite record) (compileFilter (.or conds)) = .ok b ↔
      (∀ c ∈ conds, P c) ∧ (b = true ↔ Admits fieldTypes raw record (.or conds)) := by
  rw [compileFilter, compileAll_eq, matchesFilter_combine_iff matchesFilter_or (by simp) h,
    admits_or_iff, Bool.eq_iff_iff, ← kept_eq_nil_iff]
  refine and_congr_right fun _ => iff_congr Iff.rfl ?_
  split
  · next hnil => exact iff_of_true rfl (.inl hnil)
  · next hnil =>
      rw [or_iff_right hnil]
      simp [mem_kept, and_assoc]

end

/-! ### Conditions on fields -/

theorem checkField_eq_ok {field : Str} (h : Supported fieldTypes field) :
    checkField fieldTypes field = .ok () := by
  unfold checkField
  rcases h with h | h <;> rw [h]

theorem checkField_eq_error {field : Str} (h : ¬ Supported fieldTypes field) :
    ∃ e, checkField fieldTypes field = .error e := by
  unfold checkField
  unfold Supported at h
  cases hk : fieldTypes field with
  | path => exact absurd (Or.inl hk) h
  | other => exact absurd (Or.inr hk) h
  | dateTime => exact ⟨_, rfl⟩
  | geoPoint => exact ⟨_, rfl⟩

section

variable {fields : Record} {field : Str} {conds : List Value} {para : Str}

theorem mustMatches_path {depth : Option Int} (hkind : fieldTypes field = .path)
    (hpara : parseDepth para = .ok depth) :
    mustMatches fieldTypes fields field conds para =
      .ok (conds.any fun condition => pathMatches (fields field) condition depth) := by
  unfold mustMatches
  rw [checkField_eq_ok (Or.inl hkind), if_pos hkind, hpara]
  rfl

theorem mustMatches_other (hkind : fieldTypes field = .other) :
    mustMatches fieldTypes fields field conds [] = .ok ((fields field).valueMatches conds) := by
  unfold mustMatches
  rw [checkField_eq_ok (Or.inr hkind), if_neg (by simp [hkind])]
  rfl

/-- A depth is refused for a field that is not a path. -/
theorem mustMatches_ne_ok {b : Bool} (hkind : fieldTypes field ≠ .path)
    (hpara : fieldTypes field = .other → para ≠ []) :
    mustMatches fieldTypes fields field conds para ≠ .ok b := by
  unfold mustMatches
  by_cases hs : Supported fieldTypes field
  · rw [checkField_eq_ok hs, if_neg hkind, if_pos (hpara (hs.resolve_left hkind))]
    exact fun h => nomatch h
  · obtain ⟨e, he⟩ := checkField_eq_error hs
    rw [he]
    exact fun h => nomatch h

end

theorem stored_str (field : Str) (s : Str) :
    stored field (.str s) = .str (if isUriField field then encodeUri s else s) := by
  unfold stored
  split <;> rfl

theorem stored_of_not_uri {field : Str} (h : isUriField field = false) (value : Value) :
    stored field value = value := if_neg (by simp [h])

theorem pathMatches_of_not_str {field : Str} {value expected : Value} {depth : Option Int}
    (h : ∀ a b, value = .str a → expected = .str b → False) :
    pathMatches (stored field value) (stored field expected) depth = false := by
  have hstr : ∀ v s, stored field v = .str s → ∃ t, v = .str t := by
    intro v s hv
    cases v with
    | str t => exact ⟨t, rfl⟩
    | _ => unfold stored encodeUriFieldValue at hv; split at hv <;> cases hv
  unfold pathMatches
  split
  · next a b ha hb =>
      obtain ⟨a', ha'⟩ := hstr _ _ ha
      obtain ⟨b', hb'⟩ := hstr _ _ hb
      exact absurd hb' fun hb' => h a' b' ha' hb'
  · rfl

/-- What an `Eq` on a path field is compiled to compares what counts of the paths. -/
theorem pathMatches_stored_iff {field value expected : Str} :
    pathMatches (stored field (.str value)) (stored field (.str expected))
        (if isUriField field then some 0 else none) = true ↔
      if isUriField field then pathName field value = pathName field expected
      else Continues (pathName field expected) (pathName field value) := by
  rw [stored_str, stored_str]
  unfold pathName
  cases isUriField field with
  | true => exact pathMatches_zero_iff
  | false => exact pathMatches_none_iff

theorem spelledAlike_iff {field : Str} {value expected : Value} :
    pathMatches (stored field value) (stored field expected)
        (if isUriField field then some 0 else none) = value.same expected ↔
      SpelledAlike field value expected := by
  by_cases hstr : ∃ a b, value = .str a ∧ expected = .str b
  · obtain ⟨a, b, rfl, rfl⟩ := hstr
    rw [Bool.eq_iff_iff, pathMatches_stored_iff, Value.same_str, Value.str.injEq]
    unfold SpelledAlike
    -- equal texts match
    by_cases hab : a = b
    · subst hab
      refine iff_of_true (iff_of_true ?_ rfl) (.inl rfl)
      split
      · rfl
      · exact continues_self _
    · simp only [hab, iff_false, false_or]
      split <;> rfl
  · have hnot : ∀ a b, value = .str a → expected = .str b → False :=
      fun a b ha hb => hstr ⟨a, b, ha, hb⟩
    rw [pathMatches_of_not_str hnot]
    have hiff : SpelledAlike field value expected ↔ value.same expected = false := by
      unfold SpelledAlike
      split
      · exact (hnot _ _ rfl rfl).elim
      · rfl
    rw [hiff]
    exact eq_comm

theorem any_pathMatches_iff {values : List Value} {value : Str} :
    (values.any fun expected => pathMatches (.str value) expected none) = true ↔
      ∃ expected, .str expected ∈ values ∧ Continues (bare expected) (bare value) := by
  rw [List.any_eq_true]
  constructor
  · rintro ⟨expected, hmem, hm⟩
    cases expected with
    | str b => exact ⟨b, hmem, pathMatches_none_iff.mp hm⟩
    | _ => simp [pathMatches] at hm
  · rintro ⟨b, hmem, hb⟩
    exact ⟨.str b, hmem, pathMatches_none_iff.mpr hb⟩

theorem spelledAmong_iff {field : Str} (huri : isUriField field = false) {values : List Value}
    {value : Value} :
    (values.any fun expected => pathMatches value expected none) = value.valueMatches values ↔
      SpelledAmong field values value := by
  have hname : ∀ path, pathName field path = bare path := fun path => by
    rw [pathName, huri]
    rfl
  have hnone : (∀ expected, pathMatches value expected none = false) →
      (values.any fun expected => pathMatches value expected none) = false :=
    fun h => List.any_eq_false.mpr fun expected _ => by simp [h expected]
  cases value with
  | str a =>
      have hsame : (Value.str a).valueMatches values = true ↔ .str a ∈ values := by
        simp only [Value.valueMatches, List.any_eq_true, Value.str_same, exists_eq_right']
      rw [Bool.eq_iff_iff, any_pathMatches_iff, hsame]
      simp only [SpelledAmong, hname]
      constructor
      · intro h
        by_cases hmem : .str a ∈ values
        · exact .inl hmem
        · exact .inr fun b hb hc => hmem (h.mp ⟨b, hb, hc⟩)
      · rintro (hmem | hnot)
        · exact iff_of_true ⟨a, hmem, continues_self _⟩ hmem
        · refine iff_of_false ?_ fun hmem => hnot a hmem (continues_self _)
          rintro ⟨b, hb, hc⟩
          exact hnot b hb hc
  | _ =>
      rw [hnone fun _ => rfl]
      simp only [SpelledAmong, Value.valueMatches, @eq_comm _ false, List.any_eq_false,
        Bool.not_eq_true]

/-! ### The stored form of a URI -/

theorem Names.encodeUri {uri path : Str} (h : Names uri path) : encodeUri uri = '/' :: path := by
  obtain ⟨rest, hrest, rfl⟩ := h
  exact encodeUri_of_strip hrest

/-- The stored form of a URI is a part of its text. -/
theorem Names.occurs {uri path : Str} (h : Names uri path) : '/' :: path <:+: uri := by
  obtain ⟨rest, hrest, rfl⟩ := h
  obtain ⟨v, w, hspell, hv, -⟩ := stripBy_spec (· == '/') rest
  obtain ⟨blanks, blanks', huri, -, -⟩ := stripBy_spec isSpace uri
  -- what stands before the path ends in a slash
  have hslash : ∃ front, scheme ++ v = front ++ ['/'] := by
    rcases List.eq_nil_or_concat v with rfl | ⟨v', x, rfl⟩
    · exact ⟨scheme.dropLast, rfl⟩
    · have hx : x = '/' := by simpa using hv x (by simp)
      exact ⟨scheme ++ v', by rw [hx, List.append_assoc, List.concat_eq_append]⟩
  obtain ⟨front, hfront⟩ := hslash
  refine ⟨blanks ++ front, w ++ blanks', ?_⟩
  rw [huri, show stripBy isSpace uri = scheme ++ rest from hrest]
  calc blanks ++ front ++ '/' :: stripBy (· == '/') rest ++ (w ++ blanks')
      = blanks ++ ((front ++ ['/']) ++ stripBy (· == '/') rest ++ w) ++ blanks' := by simp
    _ = blanks ++ (scheme ++ rest) ++ blanks' := by
        rw [← hfront, List.append_assoc scheme, List.append_assoc scheme, ← hspell]

/-- Only the stored form of a URI differs from the value. -/
theorem test_stored_iff (test : Value → Bool) {field : Str} {value : Value} :
    test (stored field value) = test value ↔ (isUriField field = true →
      ∀ uri path, value = .str uri → Names uri path →
        test (.str ('/' :: path)) = test (.str uri)) := by
  by_cases huri : isUriField field = true
  · simp only [huri, true_imp_iff]
    constructor
    · rintro h uri path rfl hnames
      rwa [stored_str, if_pos huri, hnames.encodeUri] at h
    · intro h
      cases value with
      | str uri =>
          rw [stored_str, if_pos huri]
          by_cases hscheme : scheme <+: strip uri
          · obtain ⟨rest, hrest⟩ := hscheme
            have hnames : Names uri (stripBy (· == '/') rest) := ⟨rest, hrest.symm, rfl⟩
            rw [hnames.encodeUri]
            exact h uri _ rfl hnames
          · rw [Query.encodeUri, if_neg hscheme]
      | _ =>
          unfold stored encodeUriFieldValue
          split <;> rfl
  · rw [stored_of_not_uri (eq_false_of_ne_true huri)]
    exact iff_of_true rfl fun h => absurd h huri

theorem contains_stored_iff {field substring : Str} {value : Value} :
    (stored field value).contains substring = value.contains substring ↔
      (isUriField field = true → ∀ uri path, value = .str uri → Names uri path →
        substring <:+: uri → substring <:+: '/' :: path) := by
  refine (test_stored_iff (Value.contains substring)).trans ?_
  refine imp_congr_right fun _ => forall₂_congr fun uri path => ?_
  refine forall₂_congr fun _ hnames => ?_
  simp only [Value.contains, decide_eq_decide]
  exact ⟨fun h => h.mpr, fun h => ⟨fun hpath => hpath.trans hnames.occurs, h⟩⟩

theorem inRange_stored_iff {field : Str} {bounds : Bounds} :
    bounds.inRange (stored field (record field)) = bounds.inRange (record field) ↔
      InRangeAlike record field bounds := by
  refine (test_stored_iff bounds.inRange).trans ?_
  refine imp_congr_right fun _ => forall₂_congr fun uri path => forall₂_congr fun _ _ => ?_
  exact Bounds.inRange_eq_iff_unites_min_max

/-- An answer, told by whether it is right. -/
theorem ok_eq_ok_iff {answer b truth : Bool} {P : Prop} (h : answer = truth ↔ P) :
    (Except.ok answer : Except Unsupported Bool) = .ok b ↔ (b = truth ↔ P) := by
  rw [Except.ok.injEq, ← h]
  cases answer <;> cases b <;> cases truth <;> decide

theorem matchesFilter_eq_iff {field : Str} {value : Value} {b : Bool} :
    matchesFilter fieldTypes (normalizeRecordForWrite record) (compileFilter (.eq field value)) =
        .ok b ↔
      Evaluable fieldTypes (.eq field value) ∧
        (b = (FilterExpr.eq field value).holds raw record ↔
          Agrees fieldTypes record (.eq field value)) := by
  rw [compileFilter, matchesFilter, FilterExpr.holds, Evaluable, Agrees]
  cases hkind : fieldTypes field with
  | path =>
      have hpara : parseDepth (if isUriField field then formatDepth 0 else []) =
          .ok (if isUriField field then some 0 else none) := by
        split
        · exact parseDepth_formatDepth 0
        · rfl
      rw [mustMatches_path hkind hpara, List.any_cons, List.any_nil, Bool.or_false, if_pos rfl,
        and_iff_right (.inl rfl)]
      exact ok_eq_ok_iff spelledAlike_iff
  | other =>
      cases huri : isUriField field with
      | true =>
          refine iff_of_false (mustMatches_ne_ok (by simp [hkind]) fun _ => ?_) (by simp)
          simp [formatDepth]
      | false =>
          rw [if_neg Bool.false_ne_true, mustMatches_other hkind, normalizeRecordForWrite,
            stored_of_not_uri huri, stored_of_not_uri huri, if_neg (by simp),
            and_iff_right (.inr ⟨rfl, rfl⟩)]
          exact ok_eq_ok_iff Value.valueMatches_singleton_iff
  | _ =>
      refine iff_of_false (mustMatches_ne_ok (by simp [hkind]) fun h => ?_) (by simp)
      rw [hkind] at h
      cases h

theorem matchesFilter_isIn_iff {field : Str} {values : List Value} {b : Bool}
    (huri : isUriField field = false) :
    matchesFilter fieldTypes (normalizeRecordForWrite record)
        (compileFilter (.isIn field values)) = .ok b ↔
      Evaluable fieldTypes (.isIn field values) ∧
        (b = (FilterExpr.isIn field values).holds raw record ↔
          Agrees fieldTypes record (.isIn field values)) := by
  have hmap : values.map (stored field) = values := by
    rw [List.map_congr_left fun v _ => stored_of_not_uri huri v, List.map_id']
  rw [compileFilter, matchesFilter, FilterExpr.holds, hmap, Evaluable, Supported, Agrees]
  cases hkind : fieldTypes field with
  | path =>
      rw [mustMatches_path hkind rfl, normalizeRecordForWrite, stored_of_not_uri huri,
        and_iff_right (.inl rfl), forall_prop_of_true rfl]
      exact ok_eq_ok_iff (spelledAmong_iff huri)
  | other =>
      rw [mustMatches_other hkind, normalizeRecordForWrite, stored_of_not_uri huri,
        and_iff_right (.inr rfl)]
      exact ok_eq_ok_iff (iff_of_true rfl fun h => by cases h)
  | _ =>
      refine iff_of_false (mustMatches_ne_ok (by simp [hkind]) fun h => ?_) (by simp)
      rw [hkind] at h
      cases h

theorem matchesFilter_pathScope_iff {field path : Str} {depth : Int} {b : Bool} :
    matchesFilter fieldTypes (normalizeRecordForWrite record)
        (compileFilter (.pathScope field path depth)) = .ok b ↔
      Evaluable fieldTypes (.pathScope field path depth) ∧
        (b = (FilterExpr.pathScope field path depth).holds raw record ↔
          Agrees fieldTypes record (.pathScope field path depth)) := by
  rw [compileFilter, matchesFilter, Evaluable, Agrees]
  by_cases hkind : fieldTypes field = .path
  · rw [mustMatches_path hkind (parseDepth_formatDepth depth), List.any_cons, List.any_nil,
      Bool.or_false, normalizeRecordForWrite, FilterExpr.holds, and_iff_right hkind]
    refine ok_eq_ok_iff ?_
    cases hvalue : record field with
    | str value =>
        have hcomps : ∀ s, fieldComponents field s =
            segments '/' (strip (if isUriField field then encodeUri s else s)) := by
          intro s
          unfold fieldComponents components
          split <;> rfl
        simp only [stored_str, hcomps, pathName, Value.str.injEq, forall_eq']
        exact pathMatches_eq_within_iff
    | _ => simp [pathMatches_of_not_str]
  · refine iff_of_false (mustMatches_ne_ok hkind fun _ => ?_) fun h => hkind h.1
    simp [formatDepth]

/-- A condition that only looks at the value of the field. -/
theorem check_eq_ok_iff {field : Str} (test : Value → Bool) {b : Bool} {P : Prop}
    (h : test (stored field (record field)) = test (record field) ↔ P) :
    (do
      checkField fieldTypes field
      pure (test (stored field (record field)))) = .ok b ↔
      Supported fieldTypes field ∧ (b = test (record field) ↔ P) := by
  by_cases hs : Supported fieldTypes field
  · rw [checkField_eq_ok hs, and_iff_right hs]
    exact ok_eq_ok_iff h
  · obtain ⟨error, he⟩ := checkField_eq_error hs
    rw [he]
    exact iff_of_false (fun h => nomatch h) fun h => hs h.1

/-- A condition on a field is answered where it can be evaluated, and rightly where it agrees. -/
theorem matchesFilter_cond_iff (raw : Dsl → Bool) {e : FilterExpr} (hplain : e.Plain)
    (hand : ∀ conds, e ≠ .and conds) (hor : ∀ conds, e ≠ .or conds) {b : Bool} :
    matchesFilter fieldTypes (normalizeRecordForWrite record) (compileFilter e) = .ok b ↔
      Evaluable fieldTypes e ∧ (b = e.holds raw record ↔ Agrees fieldTypes record e) := by
  cases e with
  | and conds => exact absurd rfl (hand conds)
  | or conds => exact absurd rfl (hor conds)
  | eq field value => exact matchesFilter_eq_iff
  | isIn field values => exact matchesFilter_isIn_iff hplain
  | pathScope field path depth => exact matchesFilter_pathScope_iff
  | contains field substring =>
      rw [FilterExpr.holds]
      exact check_eq_ok_iff (Value.contains substring) contains_stored_iff
  | range field bounds =>
      rw [FilterExpr.holds]
      exact check_eq_ok_iff bounds.inRange inRange_stored_iff
  | timeRange field start stop =>
      rw [FilterExpr.holds]
      exact check_eq_ok_iff (Bounds.inRange ⟨start, .none, .none, stop⟩) inRange_stored_iff
  | rawDsl payload => exact hplain.elim

/-- The answer of the compiled filter, for every expression. -/
theorem matchesFilter_compileFilter_iff (raw : Dsl → Bool) {e : FilterExpr}
    (hplain : ∀ part, FilterExpr.Part part e → part.Plain) (b : Bool) :
    matchesFilter fieldTypes (normalizeRecordForWrite record) (compileFilter e) = .ok b ↔
      (∀ part, FilterExpr.Part part e → Evaluable fieldTypes part) ∧
        (b = true ↔ Admits fieldTypes raw record e) := by
  induction e using FilterExpr.induct generalizing b with
  | h e ih =>
      obtain ⟨he, hconds⟩ := FilterExpr.forall_part_iff.mp hplain
      have hih := fun c hc b => ih c hc (hconds c hc) b
      rw [FilterExpr.forall_part_iff]
      by_cases hand : ∃ conds, e = .and conds
      · obtain ⟨conds, rfl⟩ := hand
        rw [and_iff_right (show Evaluable fieldTypes (.and conds) from trivial)]
        exact matchesFilter_and_iff hih
      by_cases hor : ∃ conds, e = .or conds
      · obtain ⟨conds, rfl⟩ := hor
        rw [and_iff_right (show Evaluable fieldTypes (.or conds) from trivial)]
        exact matchesFilter_or_iff hih
      · have hleaf : e.conds = [] ∧
            (Misread fieldTypes raw record e ↔ ¬ Agrees fieldTypes record e) := by
          cases e with
          | and conds => exact absurd ⟨conds, rfl⟩ hand
          | or conds => exact absurd ⟨conds, rfl⟩ hor
          | _ => exact ⟨rfl, by rw [Misread] <;> simp⟩
        rw [matchesFilter_cond_iff raw he (not_exists.mp hand) (not_exists.mp hor),
          hleaf.1, Admits, hleaf.2, not_not]
        refine and_congr (by simp) ?_
        cases b <;> cases e.holds raw record <;> simp

end

/-- The compiled filter answers what the expression says of the record exactly when the field types
allow its conditions and it is not misread. -/
theorem compiled_exact_iff (fieldTypes : Str → FieldKind) (raw : Dsl → Bool) (record : Record)
    (e : FilterExpr) (hplain : ∀ part, FilterExpr.Part part e → part.Plain) :
    Exact fieldTypes raw record e ↔
      (∀ part, FilterExpr.Part part e → Evaluable fieldTypes part) ∧
        ¬ Misread fieldTypes raw record e := by
  unfold Exact
  rw [matchesFilter_compileFilter_iff raw hplain]
  refine and_congr_right fun _ => ?_
  unfold Admits
  tauto

namespace Sample

/-- A collection whose `uri` is a path. -/
def kinds : Str → FieldKind := fun field => if field = "uri".toList then .path else .other

def record : Record := fun field =>
  if field = "uri".toList then .str "viking://docs/a.md".toList
  else if field = "account_id".toList then .str "acme".toList
  else if field = "level".toList then .num 2
  else if field = "updated_at".toList then .num 15
  else .none

def inDocs : FilterExpr := .pathScope "uri".toList "viking://docs".toList (-1)

def named : FilterExpr := .contains "uri".toList "/notes".toList

def betweenPaths : FilterExpr :=
  .range "uri".toList { gte := .str "/docs".toList, lt := .str "w".toList }

/-- The documents of an account, of two levels and a time. -/
def documents : FilterExpr :=
  .and [.eq "account_id".toList (.str "acme".toList), .or [inDocs, named],
    .isIn "level".toList [.num 1, .num 2], betweenPaths,
    .timeRange "updated_at".toList (.num 10) (.num 20)]

theorem documents_plain : ∀ part, FilterExpr.Part part documents → part.Plain := by
  have hleaf : ∀ {e : FilterExpr}, e.conds = [] → e.Plain →
      ∀ part, FilterExpr.Part part e → part.Plain :=
    fun hconds he => FilterExpr.forall_part_iff.mpr ⟨he, by simp [hconds]⟩
  refine FilterExpr.forall_part_iff.mpr ⟨trivial, ?_⟩
  simp only [documents, FilterExpr.conds, List.forall_mem_cons]
  refine ⟨hleaf rfl trivial, FilterExpr.forall_part_iff.mpr ⟨trivial, ?_⟩,
    hleaf rfl (show isUriField "level".toList = false by decide), hleaf rfl trivial,
    hleaf rfl trivial, by simp⟩
  simp only [FilterExpr.conds, List.forall_mem_cons]
  exact ⟨hleaf rfl trivial, hleaf rfl trivial, by simp⟩

theorem documents_exact : documents.holds (fun _ => false) record = true ∧
    Exact kinds (fun _ => false) record documents ∧
    (∀ part, FilterExpr.Part part documents → Evaluable kinds part) ∧
    ¬ Misread kinds (fun _ => false) record documents := by
  have hexact : Exact kinds (fun _ => false) record documents := by
    unfold Exact
    decide +kernel
  exact ⟨by decide +kernel, hexact,
    (compiled_exact_iff kinds (fun _ => false) record documents documents_plain).mp hexact⟩

/-- Three expressions that compile to something else: `Or []`, a conjunction with it, and
`Contains` with the text of a URI. -/
theorem misread :
    (FilterExpr.or []).holds (fun _ => false) record = false ∧
    matchesFilter kinds (normalizeRecordForWrite record) (compileFilter (.or [])) = .ok true ∧
    (FilterExpr.and [.or [], documents]).holds (fun _ => false) record = false ∧
    matchesFilter kinds (normalizeRecordForWrite record)
      (compileFilter (.and [.or [], documents])) = .ok true ∧
    (FilterExpr.contains "uri".toList "viking://docs".toList).holds (fun _ => false) record = true ∧
    matchesFilter kinds (normalizeRecordForWrite record)
      (compileFilter (.contains "uri".toList "viking://docs".toList)) = .ok false := by
  decide +kernel

end Sample

end OpenViking.Query
