/-
# `OpenViking.Index.RangedMap` — the ordered values of a field

`bitmap_holder/ranged_map.cpp`.  The values of a numeric field stand in sorted
slots; a range query finds the two slots its bounds fall into by binary
search, takes the slots between them whole and cuts the two at the ends.

    `searchSlots_spec`        the binary search returns the partition point
    `mem_getRangeBitmap`      a range query selects the offsets whose value is
                              in the range, for every kind of bound

A `double` is any linearly ordered type with the operations the code uses;
nothing is assumed about rounding.  `NaN` marks an offset without a value and
is an `Option` here.  A slot's `left`, `right` and bitmap are functions of its
entries: the source stores them and refreshes them with the entries.
-/
import OpenViking.Index.Bitmap
import Mathlib.Algebra.Order.Ring.Int

namespace OpenViking.Index

/-- What the code uses of `double` besides its order. -/
class DoubleArith (D : Type) where
  /-- `(double)n` -/
  ofInt : Int → D
  add : D → D → D
  sub : D → D → D
  mul : D → D → D
  /-- `DBL_MAX` and `-DBL_MAX` -/
  maxVal : D
  minVal : D

/-- The integers will do where a fixed input is evaluated. -/
instance : DoubleArith Int := ⟨id, (· + ·), (· - ·), (· * ·), 2 ^ 1024, -2 ^ 1024⟩

section Bounds

variable {D : Type} [LinearOrder D]

/-- `v <= b` or `v < b` -/
def below (inclusive : Bool) (v b : D) : Bool := if inclusive then v ≤ b else v < b

/-- `v >= b` or `v > b` -/
def above (inclusive : Bool) (v b : D) : Bool := if inclusive then b ≤ v else b < v

theorem below_not (inclusive : Bool) (v b : D) : below (!inclusive) v b = !above inclusive v b := by
  cases inclusive <;> simp [below, above, ← decide_not]

theorem above_not (inclusive : Bool) (v b : D) : above (!inclusive) v b = !below inclusive v b := by
  cases inclusive <;> simp [below, above, ← decide_not]

theorem below_anti {inclusive : Bool} {v w b : D} (h : v ≤ w) (hw : below inclusive w b = true) :
    below inclusive v b = true := by
  cases inclusive with
  | true => exact decide_eq_true (h.trans (of_decide_eq_true hw))
  | false => exact decide_eq_true (h.trans_lt (of_decide_eq_true hw))

theorem above_mono {inclusive : Bool} {v w b : D} (h : v ≤ w) (hv : above inclusive v b = true) :
    above inclusive w b = true := by
  cases inclusive with
  | true => exact decide_eq_true ((of_decide_eq_true hv).trans h)
  | false => exact decide_eq_true ((of_decide_eq_true hv).trans_le h)

end Bounds

/-! ## Slots -/

/-- `SlotMeta`: values with their offsets, in the order of the values. -/
structure Slot (D : Type) [LinearOrder D] where
  entries : List (D × Nat)
  ne_nil : entries ≠ []
  sorted : entries.Pairwise fun a b => a.1 ≤ b.1

namespace Slot

variable {D : Type} [LinearOrder D] (s : Slot D)

def left : D := (s.entries.head s.ne_nil).1

def right : D := (s.entries.getLast s.ne_nil).1

def bitmap : Bitmap := Bitmap.empty.setMany (s.entries.map Prod.snd)

theorem left_le {e : D × Nat} (he : e ∈ s.entries) : s.left ≤ e.1 := by
  obtain ⟨a, l, hl⟩ := List.exists_cons_of_ne_nil s.ne_nil
  have hs := s.sorted
  have ha : s.left = a.1 := by simp [left, hl]
  rw [hl] at hs he
  rcases List.mem_cons.mp he with rfl | he
  · exact ha.le
  · exact ha.le.trans (List.rel_of_pairwise_cons hs he)

theorem le_right {e : D × Nat} (he : e ∈ s.entries) : e.1 ≤ s.right := by
  have hs := s.sorted
  rw [← List.dropLast_append_getLast s.ne_nil] at hs he
  rcases List.mem_append.mp he with he | he
  · exact (List.pairwise_append.mp hs).2.2 e he _ (List.mem_singleton_self _)
  · rw [List.mem_singleton.mp he]; rfl

theorem left_le_right : s.left ≤ s.right := s.le_right (List.head_mem s.ne_nil)

/-- `get_lower_than_data`: the values up to the bound stand in front. -/
def lowerThanData (bound : D) (includeLe : Bool) : List (D × Nat) :=
  s.entries.takeWhile fun e => below includeLe e.1 bound

/-- `get_greater_than_data` -/
def greaterThanData (bound : D) (includeGe : Bool) : List (D × Nat) :=
  s.entries.dropWhile fun e => !above includeGe e.1 bound

/-- `get_right_border` -/
def rightBorder (lowerThan : D) (includeLe : Bool) : Nat :=
  (s.lowerThanData lowerThan includeLe).length

/-- `get_left_border` -/
def leftBorder (greaterThan : D) (includeGe : Bool) : Nat :=
  (s.entries.takeWhile fun e => !above includeGe e.1 greaterThan).length

/-- `get_range_data` -/
def rangeData (lowerThan : D) (includeLe : Bool) (greaterThan : D) (includeGe : Bool) :
    List (D × Nat) :=
  (s.entries.take (s.rightBorder lowerThan includeLe)).drop (s.leftBorder greaterThan includeGe)

end Slot

/-- In a list ordered by `f`, an initial run of a downward closed predicate is all of it. -/
theorem mem_takeWhile_of_sorted {α D : Type} [LinearOrder D] {f : α → D} {p : α → Bool}
    (hp : ∀ a b, f a ≤ f b → p b = true → p a = true) {l : List α}
    (hl : l.Pairwise fun a b => f a ≤ f b) {a : α} :
    a ∈ l.takeWhile p ↔ a ∈ l ∧ p a = true := by
  induction l with
  | nil => simp
  | cons x xs ih =>
      obtain ⟨hx, hxs⟩ := List.pairwise_cons.mp hl
      cases hpx : p x with
      | true =>
          rw [List.takeWhile_cons_of_pos hpx, List.mem_cons, List.mem_cons, ih hxs]
          constructor
          · rintro (rfl | ⟨h, h'⟩)
            · exact ⟨.inl rfl, hpx⟩
            · exact ⟨.inr h, h'⟩
          · rintro ⟨rfl | h, h'⟩
            · exact .inl rfl
            · exact .inr ⟨h, h'⟩
      | false =>
          rw [List.takeWhile_cons_of_neg (by simp [hpx])]
          refine ⟨fun h => (nomatch h), ?_⟩
          rintro ⟨h, h'⟩
          rcases List.mem_cons.mp h with rfl | h
          · exact absurd h' (by simp [hpx])
          · exact absurd (hp x a (hx a h) h') (by simp [hpx])

/-- And what follows the run is the rest. -/
theorem mem_dropWhile_of_sorted {α D : Type} [LinearOrder D] {f : α → D} {p : α → Bool}
    (hp : ∀ a b, f a ≤ f b → p b = true → p a = true) {l : List α}
    (hl : l.Pairwise fun a b => f a ≤ f b) {a : α} :
    a ∈ l.dropWhile p ↔ a ∈ l ∧ p a = false := by
  induction l with
  | nil => simp
  | cons x xs ih =>
      obtain ⟨hx, hxs⟩ := List.pairwise_cons.mp hl
      cases hpx : p x with
      | true =>
          rw [List.dropWhile_cons_of_pos hpx, ih hxs, List.mem_cons]
          constructor
          · rintro ⟨h, h'⟩
            exact ⟨.inr h, h'⟩
          · rintro ⟨rfl | h, h'⟩
            · exact absurd h' (by simp [hpx])
            · exact ⟨h, h'⟩
      | false =>
          rw [List.dropWhile_cons_of_neg (by simp [hpx])]
          refine ⟨fun h => ⟨h, ?_⟩, And.left⟩
          rcases List.mem_cons.mp h with rfl | h
          · exact hpx
          · exact Bool.eq_false_iff.mpr fun h' => absurd (hp x a (hx a h) h') (by simp [hpx])

namespace Slot

variable {D : Type} [LinearOrder D] (s : Slot D) {e : D × Nat}

theorem not_above_anti (b : D) (ge : Bool) (x y : D × Nat) (h : x.1 ≤ y.1)
    (hy : (!above ge y.1 b) = true) : (!above ge x.1 b) = true := by
  rw [Bool.not_eq_true', ← Bool.not_eq_true] at hy ⊢
  exact fun hx => hy (above_mono h hx)

theorem mem_lowerThanData {b : D} {le : Bool} :
    e ∈ s.lowerThanData b le ↔ e ∈ s.entries ∧ below le e.1 b = true :=
  mem_takeWhile_of_sorted (fun _ _ h => below_anti h) s.sorted

theorem mem_greaterThanData {b : D} {ge : Bool} :
    e ∈ s.greaterThanData b ge ↔ e ∈ s.entries ∧ above ge e.1 b = true := by
  rw [greaterThanData, mem_dropWhile_of_sorted (not_above_anti b ge) s.sorted, Bool.not_eq_false']

theorem mem_rangeData {lt gt : D} {le ge : Bool} :
    e ∈ s.rangeData lt le gt ge ↔
      e ∈ s.entries ∧ below le e.1 lt = true ∧ above ge e.1 gt = true := by
  have hsub : s.entries.take (s.rightBorder lt le) = s.lowerThanData lt le :=
    (List.prefix_iff_eq_take.mp (List.takeWhile_prefix _)).symm
  have hdrop : s.rangeData lt le gt ge =
      (s.lowerThanData lt le).dropWhile fun e => !above ge e.1 gt := by
    rw [rangeData, hsub]
    -- the left border of the slot and of its lower part cut off the same entries
    have key : ∀ (p q : D × Nat → Bool) (l : List (D × Nat)),
        (l.takeWhile q).drop (l.takeWhile p).length = (l.takeWhile q).dropWhile p := by
      intro p q l
      induction l with
      | nil => simp
      | cons x xs ih =>
          cases hq : q x with
          | false => simp [hq]
          | true =>
              cases hp : p x with
              | false => simp [hq, hp]
              | true => simpa [hq, hp] using ih
    exact key _ _ _
  have hs : (s.lowerThanData lt le).Pairwise fun a b => a.1 ≤ b.1 :=
    s.sorted.sublist (List.takeWhile_sublist _)
  rw [hdrop, mem_dropWhile_of_sorted (not_above_anti gt ge) hs, mem_lowerThanData,
    Bool.not_eq_false', and_assoc]

@[simp] theorem elems_bitmap : s.bitmap.elems = (s.entries.map Prod.snd).toFinset := by
  simp [bitmap]

end Slot

/-! ## The binary search over the slots -/

section Search

variable {D : Type} [LinearOrder D]

/-- The loop of `slot_lower_bound_idx` and `slot_upper_bound_idx`: `isBefore` and
`isAfter` are the two comparisons with the middle slot; when neither holds the
slot straddles the value and the search stops there. -/
def searchSlots (slots : List (Slot D)) (isBefore isAfter : Slot D → Bool) :
    Nat → Nat → Nat → Nat
  | 0, l, _ => l
  | fuel + 1, l, r =>
      if l < r then
        let mid := l + (r - l) / 2
        match slots[mid]? with
        | none => l
        | some slot =>
            if isBefore slot then searchSlots slots isBefore isAfter fuel (mid + 1) r
            else if isAfter slot then searchSlots slots isBefore isAfter fuel l mid
            else mid
      else l

/-- `i` is the first slot that is not before the value. -/
structure Partition (slots : List (Slot D)) (isBefore : Slot D → Bool) (i : Nat) : Prop where
  le_length : i ≤ slots.length
  lower : ∀ (j : Nat) s, slots[j]? = some s → j < i → isBefore s = true
  upper : ∀ (j : Nat) s, slots[j]? = some s → i ≤ j → isBefore s = false

variable {slots : List (Slot D)} {isBefore isAfter : Slot D → Bool}

/-- The induction is on the fuel; `[l, r)` is what is left to search. -/
theorem searchSlots_spec
    (hbefore : ∀ (i j : Nat) s t, slots[i]? = some s → slots[j]? = some t → i ≤ j →
      isBefore t = true → isBefore s = true)
    (hafter : ∀ (i j : Nat) s t, slots[i]? = some s → slots[j]? = some t → i < j →
      isAfter t = false → isBefore s = true)
    (fuel l r : Nat) (hfuel : r - l ≤ fuel) (hlr : l ≤ r) (hr : r ≤ slots.length)
    (hl : ∀ (j : Nat) s, slots[j]? = some s → j < l → isBefore s = true)
    (hu : ∀ (j : Nat) s, slots[j]? = some s → r ≤ j → isBefore s = false) :
    Partition slots isBefore (searchSlots slots isBefore isAfter fuel l r) := by
  induction fuel generalizing l r with
  | zero =>
      obtain rfl : l = r := by omega
      exact ⟨hr, hl, hu⟩
  | succ fuel ih =>
      unfold searchSlots
      split
      · next hlt =>
          obtain ⟨mid, hmid⟩ : ∃ mid, mid = l + (r - l) / 2 := ⟨_, rfl⟩
          have hm : l ≤ mid ∧ mid < r := by omega
          rw [← hmid]
          obtain ⟨slot, hslot⟩ : ∃ slot, slots[mid]? = some slot :=
            ⟨_, List.getElem?_eq_getElem (by omega)⟩
          simp only [hslot]
          split
          · next hb =>
              refine ih (mid + 1) r (by omega) (by omega) hr (fun j s hj hlt => ?_) hu
              exact hbefore j mid s slot hj hslot (by omega) hb
          · next hb =>
              have hnb : ∀ (j : Nat) s, slots[j]? = some s → mid ≤ j → isBefore s = false := by
                intro j s hj hle
                exact Bool.eq_false_iff.mpr fun h => hb (hbefore mid j slot s hslot hj hle h)
              split
              · exact ih l mid (by omega) (by omega) (by omega) hl hnb
              · next ha =>
                  refine ⟨by omega, fun j s hj hlt => ?_, hnb⟩
                  exact hafter j mid s slot hj hslot hlt (by simpa using ha)
      · next hge =>
          obtain rfl : l = r := by omega
          exact ⟨hr, hl, hu⟩

end Search

/-! ## The map -/

/-- `RangedMap`: the slots, in the order of their values, and the value of each
offset. -/
structure RangedMap (D : Type) [LinearOrder D] where
  slots : List (Slot D)
  offsetToValue : List (Option D)
  sorted : slots.Pairwise fun s t => s.right ≤ t.left

namespace RangedMap

variable {D : Type} [LinearOrder D] (m : RangedMap D)

/-- All entries, in order. -/
def entries : List (D × Nat) := m.slots.flatMap Slot.entries

/-- `slot_lower_bound_idx` -/
def slotLowerBoundIdx (val : D) : Nat :=
  searchSlots m.slots (fun s => s.right < val) (fun s => val ≤ s.left) m.slots.length 0
    m.slots.length

/-- `slot_upper_bound_idx` -/
def slotUpperBoundIdx (val : D) : Nat :=
  searchSlots m.slots (fun s => s.right ≤ val) (fun s => val < s.left) m.slots.length 0
    m.slots.length

/-- `find_right_slot_index`; `none` is `-1`. -/
def findRightSlotIndex (lowerThan : D) (includeLe : Bool) : Option Nat :=
  let found := if includeLe then m.slotUpperBoundIdx lowerThan else m.slotLowerBoundIdx lowerThan
  let idx := min found (m.slots.length - 1)
  match m.slots[idx]? with
  | none => none
  | some s =>
      if below includeLe s.left lowerThan then some idx
      else match idx with
        | 0 => none
        | idx' + 1 => some idx'

/-- `find_left_slot_index` -/
def findLeftSlotIndex (greaterThan : D) (includeGe : Bool) : Nat :=
  if includeGe then m.slotLowerBoundIdx greaterThan else m.slotUpperBoundIdx greaterThan

variable {m}

theorem right_le_left {i j : Nat} {s t : Slot D} (hi : m.slots[i]? = some s)
    (hj : m.slots[j]? = some t) (h : i < j) : s.right ≤ t.left := by
  obtain ⟨hi', rfl⟩ := List.getElem?_eq_some_iff.mp hi
  obtain ⟨hj', rfl⟩ := List.getElem?_eq_some_iff.mp hj
  exact List.pairwise_iff_getElem.mp m.sorted i j hi' hj' h

theorem right_mono {i j : Nat} {s t : Slot D} (hi : m.slots[i]? = some s)
    (hj : m.slots[j]? = some t) (h : i ≤ j) : s.right ≤ t.right := by
  rcases Nat.lt_or_eq_of_le h with h | rfl
  · exact (right_le_left hi hj h).trans t.left_le_right
  · rw [Option.some.inj (hi.symm.trans hj)]

theorem lowerBound_partition (val : D) :
    Partition m.slots (fun s => s.right < val) (m.slotLowerBoundIdx val) := by
  refine searchSlots_spec (fun i j s t hi hj h ht => ?_) (fun i j s t hi hj h ht => ?_) _ _ _
    (by omega) (by omega) le_rfl (fun j s _ h => absurd h (by omega)) (fun j s hj h => ?_)
  · exact decide_eq_true ((right_mono hi hj h).trans_lt (of_decide_eq_true ht))
  · have hlt : t.left < val := not_le.mp (of_decide_eq_false ht)
    exact decide_eq_true ((right_le_left hi hj h).trans_lt hlt)
  · rw [List.getElem?_eq_none h] at hj; cases hj

theorem upperBound_partition (val : D) :
    Partition m.slots (fun s => s.right ≤ val) (m.slotUpperBoundIdx val) := by
  refine searchSlots_spec (fun i j s t hi hj h ht => ?_) (fun i j s t hi hj h ht => ?_) _ _ _
    (by omega) (by omega) le_rfl (fun j s _ h => absurd h (by omega)) (fun j s hj h => ?_)
  · exact decide_eq_true ((right_mono hi hj h).trans (of_decide_eq_true ht))
  · have hle : t.left ≤ val := not_lt.mp (of_decide_eq_false ht)
    exact decide_eq_true ((right_le_left hi hj h).trans hle)
  · rw [List.getElem?_eq_none h] at hj; cases hj

/-- The left slot of a range is the first that reaches into it. -/
theorem findLeftSlotIndex_le_iff {b : D} {ge : Bool} {i : Nat} {s : Slot D}
    (hi : m.slots[i]? = some s) : m.findLeftSlotIndex b ge ≤ i ↔ above ge s.right b = true := by
  unfold findLeftSlotIndex
  cases ge with
  | true =>
      have h := m.lowerBound_partition b
      constructor
      · intro hle
        have := of_decide_eq_false (h.upper i s hi hle)
        exact decide_eq_true (not_lt.mp this)
      · intro ha
        by_contra hlt
        have := of_decide_eq_true (h.lower i s hi (Nat.lt_of_not_le hlt))
        exact absurd (of_decide_eq_true ha) (not_le.mpr this)
  | false =>
      have h := m.upperBound_partition b
      constructor
      · intro hle
        have := of_decide_eq_false (h.upper i s hi hle)
        exact decide_eq_true (not_le.mp this)
      · intro ha
        by_contra hlt
        have := of_decide_eq_true (h.lower i s hi (Nat.lt_of_not_le hlt))
        exact absurd (of_decide_eq_true ha) (not_lt.mpr this)

/-- The two searches for a right bound, in one form: the slots in front of the
result end within the bound, those after it begin beyond it. -/
theorem rightBound_partition (b : D) (le : Bool) :
    Partition m.slots (fun s => below le s.right b)
      (if le then m.slotUpperBoundIdx b else m.slotLowerBoundIdx b) := by
  cases le with
  | true => exact m.upperBound_partition b
  | false => exact m.lowerBound_partition b

/-- The right slot of a range is the last that begins within it. -/
theorem findRightSlotIndex_spec {b : D} {le : Bool} {i : Nat} {s : Slot D}
    (hi : m.slots[i]? = some s) :
    (∃ r, m.findRightSlotIndex b le = some r ∧ i ≤ r) ↔ below le s.left b = true := by
  have hpart := m.rightBound_partition b le
  have hlen : i < m.slots.length := (List.getElem?_eq_some_iff.mp hi).1
  unfold findRightSlotIndex
  obtain ⟨u, hu⟩ : ∃ u, u = if le then m.slotUpperBoundIdx b else m.slotLowerBoundIdx b := ⟨_, rfl⟩
  rw [← hu] at hpart
  simp only [← hu]
  obtain ⟨t, ht⟩ : ∃ t, m.slots[min u (m.slots.length - 1)]? = some t :=
    ⟨_, List.getElem?_eq_getElem (by omega)⟩
  simp only [ht]
  -- a slot in front of the partition point ends, so begins, within the bound
  have hfront : i < u → below le s.left b = true := fun h =>
    below_anti s.left_le_right (hpart.lower i s hi h)
  -- a slot strictly after it begins beyond
  have hback : u < i → below le s.left b = false := by
    intro h
    obtain ⟨v, hv⟩ : ∃ v, m.slots[u]? = some v := ⟨_, List.getElem?_eq_getElem (by omega)⟩
    refine Bool.eq_false_iff.mpr fun hs => ?_
    have := below_anti (right_le_left hv hi h) hs
    rw [hpart.upper u v hv le_rfl] at this
    cases this
  have hsame : i = min u (m.slots.length - 1) → s = t := fun h =>
    Option.some.inj (hi.symm.trans (h ▸ ht))
  split
  · next hb =>
      simp only [Option.some.injEq, exists_eq_left']
      constructor
      · intro hle
        rcases Nat.lt_or_ge i u with h | h
        · exact hfront h
        · rw [hsame (by omega)]; exact hb
      · intro hs
        by_contra hgt
        have := hback (by omega)
        rw [hs] at this
        cases this
  · next hb =>
      -- the slot found begins beyond the bound, so it is the partition point itself
      have hut : u = min u (m.slots.length - 1) := by
        by_contra hne
        exact hb (below_anti t.left_le_right (hpart.lower _ t ht (by omega)))
      cases hidx : min u (m.slots.length - 1) with
      | zero =>
          simp only [reduceCtorEq, false_and, exists_false, false_iff]
          intro hs
          rcases Nat.eq_zero_or_pos i with h | h
          · exact hb (hsame (by omega) ▸ hs)
          · rw [hback (by omega)] at hs; cases hs
      | succ k =>
          simp only [Option.some.injEq, exists_eq_left']
          constructor
          · intro hle
            exact hfront (by omega)
          · intro hs
            by_contra hgt
            rcases Nat.lt_or_eq_of_le (show k + 1 ≤ i by omega) with h | h
            · rw [hback (by omega)] at hs; cases hs
            · exact hb (hsame (by omega) ▸ hs)

/-! ## Range queries -/

/-- The two bounds of a range; `lower_than` and `greater_than` in the source. -/
structure Bounds (D : Type) where
  lowerThan : D
  includeLe : Bool
  greaterThan : D
  includeGe : Bool
  deriving DecidableEq, Repr

/-- Is the value between the bounds? -/
def Bounds.Holds (bs : Bounds D) (v : D) : Prop :=
  below bs.includeLe v bs.lowerThan = true ∧ above bs.includeGe v bs.greaterThan = true

/-- A `range_out` with crossed bounds means the interval between them. -/
def Bounds.orient (bs : Bounds D) (rangeOut : Bool) : Bounds D :=
  if rangeOut && bs.lowerThan < bs.greaterThan then
    ⟨bs.greaterThan, bs.includeGe, bs.lowerThan, bs.includeLe⟩
  else bs

variable (m)

/-- What the slots contribute to a range: the entries, and the count `cnt`.  The
count goes below zero when both bounds cut one slot and the range is empty. -/
def collectIn (bs : Bounds D) : List (D × Nat) × Int :=
  let l := m.findLeftSlotIndex bs.greaterThan bs.includeGe
  match m.findRightSlotIndex bs.lowerThan bs.includeLe with
  | none => ([], 0)
  | some r =>
      let whole := ((m.slots.take r).drop (l + 1)).flatMap Slot.entries
      match m.slots[l]?, m.slots[r]? with
      | some sl, some sr =>
          if l < r then
            let found := whole ++ sr.lowerThanData bs.lowerThan bs.includeLe ++
              sl.greaterThanData bs.greaterThan bs.includeGe
            (found, found.length)
          else if l = r then
            (sr.rangeData bs.lowerThan bs.includeLe bs.greaterThan bs.includeGe,
              sr.rightBorder bs.lowerThan bs.includeLe - sr.leftBorder bs.greaterThan bs.includeGe)
          else ([], 0)
      | _, _ => (whole, whole.length)

/-- The same outside the range. -/
def collectOut (bs : Bounds D) : List (D × Nat) :=
  let l := m.findLeftSlotIndex bs.greaterThan bs.includeGe
  let lower := (m.slots.take l).flatMap Slot.entries ++
    match m.slots[l]? with
    | some s => s.lowerThanData bs.greaterThan !bs.includeGe
    | none => []
  match m.findRightSlotIndex bs.lowerThan bs.includeLe with
  | none => lower ++ m.entries
  | some r =>
      lower ++ (m.slots.drop (r + 1)).flatMap Slot.entries ++
        match m.slots[r]? with
        | some s => s.greaterThanData bs.lowerThan !bs.includeLe
        | none => []

/-- `get_range_bitmap_with_slot_data`: null when there is nothing. -/
def getRangeBitmap (rangeOut : Bool) (bs : Bounds D) : BitmapPtr :=
  if m.slots = [] then none
  else
    let bs := bs.orient rangeOut
    let (found, cnt) :=
      if rangeOut then (m.collectOut bs, ((m.collectOut bs).length : Int)) else m.collectIn bs
    if cnt = 0 then none else some (Bitmap.empty.setMany (found.map Prod.snd))

/-- `offset_to_value_[offset]` -/
def valueAt (offset : Nat) : Option D := m.offsetToValue.getD offset none

variable {m}

theorem mem_flatMap_take_drop {e : D × Nat} {i j : Nat} :
    e ∈ ((m.slots.take j).drop i).flatMap Slot.entries ↔
      ∃ (k : Nat) (s : Slot D), m.slots[k]? = some s ∧ i ≤ k ∧ k < j ∧ e ∈ s.entries := by
  rw [List.mem_flatMap]
  constructor
  · rintro ⟨s, hs, he⟩
    obtain ⟨n, hn⟩ := List.mem_iff_getElem?.mp hs
    rw [List.getElem?_drop, List.getElem?_take] at hn
    split at hn
    · next h => exact ⟨i + n, s, hn, by omega, h, he⟩
    · cases hn
  · rintro ⟨k, s, hk, hik, hkj, he⟩
    refine ⟨s, List.mem_iff_getElem?.mpr ⟨k - i, ?_⟩, he⟩
    rw [List.getElem?_drop, List.getElem?_take, if_pos (by omega), show i + (k - i) = k by omega,
      hk]

theorem mem_flatMap_drop {e : D × Nat} {i : Nat} :
    e ∈ (m.slots.drop i).flatMap Slot.entries ↔
      ∃ (k : Nat) (s : Slot D), m.slots[k]? = some s ∧ i ≤ k ∧ e ∈ s.entries := by
  have h := mem_flatMap_take_drop (m := m) (e := e) (i := i) (j := m.slots.length)
  rw [List.take_length] at h
  rw [h]
  constructor
  · rintro ⟨k, s, hk, hik, -, he⟩
    exact ⟨k, s, hk, hik, he⟩
  · rintro ⟨k, s, hk, hik, he⟩
    exact ⟨k, s, hk, hik, (List.getElem?_eq_some_iff.mp hk).1, he⟩

theorem mem_entries {e : D × Nat} :
    e ∈ m.entries ↔ ∃ (i : Nat) (s : Slot D), m.slots[i]? = some s ∧ e ∈ s.entries := by
  simpa [entries] using mem_flatMap_drop (m := m) (e := e) (i := 0)

/-- An entry of slot `i` against the left slot of the range. -/
theorem above_of_left_lt {b : D} {ge : Bool} {i : Nat} {s : Slot D} {e : D × Nat}
    (hi : m.slots[i]? = some s) (he : e ∈ s.entries) (h : m.findLeftSlotIndex b ge < i) :
    above ge e.1 b = true := by
  obtain ⟨t, ht⟩ : ∃ t, m.slots[m.findLeftSlotIndex b ge]? = some t :=
    ⟨_, List.getElem?_eq_getElem (h.trans (List.getElem?_eq_some_iff.mp hi).1)⟩
  have := (findLeftSlotIndex_le_iff ht).mp le_rfl
  exact above_mono ((right_le_left ht hi h).trans (s.left_le he)) this

theorem not_above_of_lt_left {b : D} {ge : Bool} {i : Nat} {s : Slot D} {e : D × Nat}
    (hi : m.slots[i]? = some s) (he : e ∈ s.entries) (h : i < m.findLeftSlotIndex b ge) :
    above ge e.1 b = false := by
  refine Bool.eq_false_iff.mpr fun ha => ?_
  exact absurd ((findLeftSlotIndex_le_iff hi).mpr (above_mono (s.le_right he) ha)) (by omega)

/-- An entry of slot `i` against the right slot. -/
theorem below_of_lt_right {b : D} {le : Bool} {r i : Nat} {s : Slot D} {e : D × Nat}
    (hr : m.findRightSlotIndex b le = some r) (hlen : r < m.slots.length)
    (hi : m.slots[i]? = some s) (he : e ∈ s.entries) (h : i < r) : below le e.1 b = true := by
  obtain ⟨t, ht⟩ : ∃ t, m.slots[r]? = some t := ⟨_, List.getElem?_eq_getElem hlen⟩
  have := (findRightSlotIndex_spec ht).mp ⟨r, hr, le_rfl⟩
  exact below_anti ((s.le_right he).trans (right_le_left hi ht h)) this

theorem not_below_of_right_lt {b : D} {le : Bool} {i : Nat} {s : Slot D} {e : D × Nat}
    (hi : m.slots[i]? = some s) (he : e ∈ s.entries)
    (h : ∀ r, m.findRightSlotIndex b le = some r → r < i) : below le e.1 b = false := by
  refine Bool.eq_false_iff.mpr fun hb => ?_
  obtain ⟨r, hr, hle⟩ := (findRightSlotIndex_spec hi).mpr (below_anti (s.left_le he) hb)
  exact absurd (h r hr) (by omega)

theorem findRightSlotIndex_lt {b : D} {le : Bool} {r : Nat}
    (h : m.findRightSlotIndex b le = some r) : r < m.slots.length := by
  simp only [findRightSlotIndex] at h
  split at h
  · cases h
  · next s hs =>
      have hlen := (List.getElem?_eq_some_iff.mp hs).1
      split at h
      · cases h; exact hlen
      · split at h
        · cases h
        · next heq => cases h; omega

/-- Inside: the slots between the two ends whole, the ends cut. -/
theorem mem_collectIn {bs : Bounds D} {e : D × Nat} :
    e ∈ (m.collectIn bs).1 ↔ e ∈ m.entries ∧ bs.Holds e.1 := by
  obtain ⟨l, hl⟩ : ∃ l, l = m.findLeftSlotIndex bs.greaterThan bs.includeGe := ⟨_, rfl⟩
  simp only [collectIn, ← hl]
  cases hr : m.findRightSlotIndex bs.lowerThan bs.includeLe with
  | none =>
      refine ⟨fun h => (nomatch h), ?_⟩
      rintro ⟨he, hb, -⟩
      obtain ⟨i, s, hi, he⟩ := mem_entries.mp he
      rw [not_below_of_right_lt hi he (fun r h => by rw [hr] at h; cases h)] at hb
      cases hb
  | some r =>
      have hrlen := findRightSlotIndex_lt hr
      obtain ⟨sr, hsr⟩ : ∃ sr, m.slots[r]? = some sr := ⟨_, List.getElem?_eq_getElem hrlen⟩
      -- where an entry in range can stand
      have hplace : ∀ (i : Nat) (s : Slot D), m.slots[i]? = some s → e ∈ s.entries →
          bs.Holds e.1 → l ≤ i ∧ i ≤ r := by
        intro i s hi he ⟨hb, ha⟩
        constructor
        · by_contra hlt
          rw [not_above_of_lt_left hi he (by omega)] at ha
          cases ha
        · by_contra hlt
          rw [not_below_of_right_lt hi he (fun r' h => by rw [hr] at h; cases h; omega)] at hb
          cases hb
      cases hsl : m.slots[l]? with
      | none =>
          have hlen : m.slots.length ≤ l := List.getElem?_eq_none_iff.mp hsl
          have hno : ((m.slots.take r).drop (l + 1)) = [] := by
            rw [List.drop_eq_nil_iff, List.length_take]; omega
          simp only [hno, List.flatMap_nil, List.not_mem_nil, false_iff]
          rintro ⟨he, h⟩
          obtain ⟨i, s, hi, he⟩ := mem_entries.mp he
          have := (hplace i s hi he h).1
          have := (List.getElem?_eq_some_iff.mp hi).1
          omega
      | some sl =>
          simp only [hsr]
          split
          · next hlr =>
              simp only [List.mem_append, mem_flatMap_take_drop, Slot.mem_lowerThanData,
                Slot.mem_greaterThanData]
              constructor
              · rintro ((⟨k, s, hk, hlk, hkr, he⟩ | ⟨he, hb⟩) | ⟨he, ha⟩)
                · exact ⟨mem_entries.mpr ⟨k, s, hk, he⟩,
                    below_of_lt_right hr hrlen hk he hkr, above_of_left_lt hk he (by omega)⟩
                · exact ⟨mem_entries.mpr ⟨r, sr, hsr, he⟩, hb, above_of_left_lt hsr he (by omega)⟩
                · exact ⟨mem_entries.mpr ⟨l, sl, hsl, he⟩,
                    below_of_lt_right hr hrlen hsl he hlr, ha⟩
              · rintro ⟨he, h⟩
                obtain ⟨i, s, hi, he⟩ := mem_entries.mp he
                obtain ⟨hli, hir⟩ := hplace i s hi he h
                rcases Nat.lt_or_eq_of_le hir with hir | rfl
                · rcases Nat.lt_or_eq_of_le hli with hli | rfl
                  · exact .inl (.inl ⟨i, s, hi, hli, hir, he⟩)
                  · cases hsl.symm.trans hi
                    exact .inr ⟨he, h.2⟩
                · cases hsr.symm.trans hi
                  exact .inl (.inr ⟨he, h.1⟩)
          · next hnlr =>
              split
              · next hlr =>
                  rw [Slot.mem_rangeData]
                  constructor
                  · rintro ⟨he, h⟩
                    exact ⟨mem_entries.mpr ⟨r, sr, hsr, he⟩, h⟩
                  · rintro ⟨he, h⟩
                    obtain ⟨i, s, hi, he⟩ := mem_entries.mp he
                    obtain ⟨hli, hir⟩ := hplace i s hi he h
                    obtain rfl : i = r := by omega
                    cases hsr.symm.trans hi
                    exact ⟨he, h⟩
              · next hne =>
                  refine ⟨fun h => (nomatch h), ?_⟩
                  rintro ⟨he, h⟩
                  obtain ⟨i, s, hi, he⟩ := mem_entries.mp he
                  have := hplace i s hi he h
                  omega

/-- Outside: what lies below the left bound or above the right one. -/
theorem mem_collectOut {bs : Bounds D} {e : D × Nat} :
    e ∈ m.collectOut bs ↔ e ∈ m.entries ∧ ¬ bs.Holds e.1 := by
  have hlower : (e ∈ (m.slots.take (m.findLeftSlotIndex bs.greaterThan bs.includeGe)).flatMap
      Slot.entries ++ match m.slots[m.findLeftSlotIndex bs.greaterThan bs.includeGe]? with
        | some s => s.lowerThanData bs.greaterThan !bs.includeGe
        | none => []) ↔ e ∈ m.entries ∧ above bs.includeGe e.1 bs.greaterThan = false := by
    obtain ⟨l, hl⟩ : ∃ l, l = m.findLeftSlotIndex bs.greaterThan bs.includeGe := ⟨_, rfl⟩
    have htake := mem_flatMap_take_drop (m := m) (e := e) (i := 0) (j := l)
    rw [List.drop_zero] at htake
    rw [← hl, List.mem_append, htake]
    constructor
    · rintro (⟨k, s, hk, -, hkl, he⟩ | he)
      · exact ⟨mem_entries.mpr ⟨k, s, hk, he⟩, not_above_of_lt_left hk he (by omega)⟩
      · split at he
        · next s hs =>
            obtain ⟨he, hb⟩ := s.mem_lowerThanData.mp he
            rw [below_not, Bool.not_eq_true'] at hb
            exact ⟨mem_entries.mpr ⟨l, s, hs, he⟩, hb⟩
        · cases he
    · rintro ⟨he, ha⟩
      obtain ⟨i, s, hi, he⟩ := mem_entries.mp he
      rcases Nat.lt_trichotomy i l with h | rfl | h
      · exact .inl ⟨i, s, hi, by omega, h, he⟩
      · refine .inr ?_
        simp only [hi]
        exact s.mem_lowerThanData.mpr ⟨he, by rw [below_not, ha]; rfl⟩
      · rw [above_of_left_lt hi he (by omega)] at ha
        cases ha
  have hsplit : ¬ bs.Holds e.1 ↔ above bs.includeGe e.1 bs.greaterThan = false ∨
      below bs.includeLe e.1 bs.lowerThan = false := by
    simp only [Bounds.Holds, not_and_or, Bool.not_eq_true]
    exact or_comm
  simp only [collectOut]
  cases hr : m.findRightSlotIndex bs.lowerThan bs.includeLe with
  | none =>
      rw [List.mem_append, hlower, hsplit]
      constructor
      · rintro (h | he)
        · exact ⟨h.1, .inl h.2⟩
        · obtain ⟨i, s, hi, he'⟩ := mem_entries.mp he
          exact ⟨he, .inr (not_below_of_right_lt hi he' (fun r h => by rw [hr] at h; cases h))⟩
      · rintro ⟨he, -⟩
        exact .inr he
  | some r =>
      have hrlen := findRightSlotIndex_lt hr
      rw [List.mem_append, List.mem_append, hlower, hsplit, mem_flatMap_drop, or_assoc]
      constructor
      · rintro (h | ⟨k, s, hk, hrk, he⟩ | he)
        · exact ⟨h.1, .inl h.2⟩
        · exact ⟨mem_entries.mpr ⟨k, s, hk, he⟩,
            .inr (not_below_of_right_lt hk he (fun r' h => by rw [hr] at h; cases h; omega))⟩
        · split at he
          · next s hs =>
              obtain ⟨he, ha⟩ := s.mem_greaterThanData.mp he
              rw [above_not, Bool.not_eq_true'] at ha
              exact ⟨mem_entries.mpr ⟨r, s, hs, he⟩, .inr ha⟩
          · cases he
      · rintro ⟨he, ha | hb⟩
        · exact .inl ⟨he, ha⟩
        · obtain ⟨i, s, hi, he'⟩ := mem_entries.mp he
          rcases Nat.lt_trichotomy i r with h | rfl | h
          · rw [below_of_lt_right hr hrlen hi he' h] at hb
            cases hb
          · refine .inr (.inr ?_)
            simp only [hi]
            exact s.mem_greaterThanData.mpr ⟨he', by rw [above_not, hb]; rfl⟩
          · exact .inr (.inl ⟨i, s, hi, h, he'⟩)

/-- Does a range filter want the value?  `range_out` wants what is outside the
interval its bounds span. -/
def Bounds.Wants (bs : Bounds D) (rangeOut : Bool) (v : D) : Prop :=
  if rangeOut then ¬ (bs.orient true).Holds v else bs.Holds v

theorem collectIn_eq_nil_of_cnt {bs : Bounds D} (h : (m.collectIn bs).2 = 0) :
    (m.collectIn bs).1 = [] := by
  obtain ⟨p, hp⟩ : ∃ p, p = m.collectIn bs := ⟨_, rfl⟩
  rw [← hp] at h ⊢
  simp only [collectIn] at hp
  split at hp
  · rw [hp]
  · split at hp
    · next sl sr _ _ =>
        split at hp
        · rw [hp] at h ⊢
          exact List.eq_nil_of_length_eq_zero (Int.ofNat_eq_zero.mp h)
        · split at hp
          · rw [hp] at h ⊢
            dsimp only at h
            rw [Slot.rangeData, List.drop_eq_nil_iff, List.length_take]
            omega
          · rw [hp]
    · rw [hp] at h ⊢
      exact List.eq_nil_of_length_eq_zero (Int.ofNat_eq_zero.mp h)

/-- A range query selects the offsets whose value the range wants. -/
theorem mem_getRangeBitmap {rangeOut : Bool} {bs : Bounds D} {o : Nat} :
    o ∈ (m.getRangeBitmap rangeOut bs).elems ↔
      ∃ v, (v, o) ∈ m.entries ∧ bs.Wants rangeOut v := by
  unfold getRangeBitmap
  split
  · next hnil => simp [entries, hnil]
  · cases rangeOut with
    | true =>
        simp only [if_true]
        split
        · next hcnt =>
            have hnil : m.collectOut (bs.orient true) = [] :=
              List.eq_nil_of_length_eq_zero (by simpa using hcnt)
            simp only [BitmapPtr.elems_none, Finset.notMem_empty, false_iff]
            rintro ⟨v, hv, hw⟩
            have : (v, o) ∈ m.collectOut (bs.orient true) := mem_collectOut.mpr ⟨hv, hw⟩
            rw [hnil] at this
            cases this
        · simp [mem_collectOut, Bounds.Wants]
    | false =>
        have ho : bs.orient false = bs := rfl
        simp only [ho, Bool.false_eq_true, if_false]
        split
        · next hcnt =>
            simp only [BitmapPtr.elems_none, Finset.notMem_empty, false_iff]
            rintro ⟨v, hv, hw⟩
            have : (v, o) ∈ (m.collectIn bs).1 := mem_collectIn.mpr ⟨hv, hw⟩
            rw [collectIn_eq_nil_of_cnt hcnt] at this
            cases this
        · simp [mem_collectIn, Bounds.Wants]

/-! ## Two dimensions -/

section TwoDimensional

variable [DoubleArith D]

open DoubleArith

/-- `dist_square_to(x, y, offset) > dist_square_max` -/
def isFar (xs ys : RangedMap D) (x y radius : D) (offset : Nat) : Bool :=
  match xs.valueAt offset, ys.valueAt offset with
  | some vx, some vy =>
      let xdiff := sub vx x
      let ydiff := sub vy y
      mul radius radius < add (mul xdiff xdiff) (mul ydiff ydiff)
  | _, _ => false

/-- The interval of one coordinate. -/
def around (x radius : D) : Bounds D := ⟨add x radius, true, sub x radius, true⟩

/-- `get_range2d_bitmap_with_slot_data`: the box around the circle, then the
members too far from the centre are taken out. -/
def getRange2dBitmap (xs ys : RangedMap D) (x y radius : D) : BitmapPtr :=
  if radius ≤ ofInt 0 then none
  else
    match xs.getRangeBitmap false (around x radius), ys.getRangeBitmap false (around y radius) with
    | some inX, some inY =>
        if inX.elems = ∅ ∨ inY.elems = ∅ then none
        else
          let box := inX.intersect inY
          let far := Bitmap.ofSet (box.elems.filter fun o => isFar xs ys x y radius o)
          let circle := box.exclude far
          if circle.elems = ∅ then none else some circle
    | _, _ => none

/-- Does the offset lie in the box and in the circle? -/
def Near (xs ys : RangedMap D) (x y radius : D) (o : Nat) : Prop :=
  (∃ v, (v, o) ∈ xs.entries ∧ (around x radius).Holds v) ∧
  (∃ v, (v, o) ∈ ys.entries ∧ (around y radius).Holds v) ∧
  isFar xs ys x y radius o = false

theorem mem_getRange2dBitmap {xs ys : RangedMap D} {x y radius : D} {o : Nat} :
    o ∈ (getRange2dBitmap xs ys x y radius).elems ↔
      ¬ radius ≤ ofInt 0 ∧ Near xs ys x y radius o := by
  unfold getRange2dBitmap Near
  split
  · next h => simp [h]
  · next h =>
      have hx := @mem_getRangeBitmap _ _ xs false (around x radius) o
      have hy := @mem_getRangeBitmap _ _ ys false (around y radius) o
      simp only [Bounds.Wants, Bool.false_eq_true, if_false] at hx hy
      rw [← hx, ← hy]
      split
      · next inX inY hX hY =>
          rw [hX, hY]
          split
          · next hempty =>
              simp only [BitmapPtr.elems_none, Finset.notMem_empty, BitmapPtr.elems_some, false_iff]
              rintro ⟨-, ho, ho', -⟩
              rcases hempty with he | he
              · rw [he] at ho; exact absurd ho (Finset.notMem_empty o)
              · rw [he] at ho'; exact absurd ho' (Finset.notMem_empty o)
          · dsimp only
            have hmem : o ∈ ((inX.intersect inY).exclude (Bitmap.ofSet
                ((inX.intersect inY).elems.filter fun o => isFar xs ys x y radius o))).elems ↔
                o ∈ inX.elems ∧ o ∈ inY.elems ∧ isFar xs ys x y radius o = false := by
              simp only [Bitmap.elems_exclude, Bitmap.elems_intersect, Bitmap.elems_ofSet,
                Finset.mem_sdiff, Finset.mem_inter, Finset.mem_filter, not_and, Bool.not_eq_true]
              constructor
              · rintro ⟨⟨h₁, h₂⟩, h₃⟩
                exact ⟨h₁, h₂, h₃ ⟨h₁, h₂⟩⟩
              · rintro ⟨h₁, h₂, h₃⟩
                exact ⟨⟨h₁, h₂⟩, fun _ => h₃⟩
            split
            · next hempty =>
                rw [hempty] at hmem
                simp only [BitmapPtr.elems_none, BitmapPtr.elems_some, h, not_false_eq_true,
                  true_and]
                exact hmem
            · simp only [BitmapPtr.elems_some, h, not_false_eq_true, true_and]
              exact hmem
      · next hnone =>
          simp only [BitmapPtr.elems_none, Finset.notMem_empty, false_iff]
          rintro ⟨-, ho, ho', -⟩
          cases hX : xs.getRangeBitmap false (around x radius) with
          | none => rw [hX] at ho; exact absurd ho (Finset.notMem_empty o)
          | some inX =>
              cases hY : ys.getRangeBitmap false (around y radius) with
              | none => rw [hY] at ho'; exact absurd ho' (Finset.notMem_empty o)
              | some inY => exact hnone inX inY hX hY

end TwoDimensional

end RangedMap

end OpenViking.Index
