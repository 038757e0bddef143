/-
# `OpenViking.Index.RangedUpdate` — adding to and deleting from a ranged map

`bitmap_holder/ranged_map.cpp`: `add_offset_and_score` and `delete_offset`.  An
offset goes into the last slot that begins at or below its value; a slot that
has grown too large is split in two.  The slots stay in order, which is what a
`RangedMap` asks for.
-/
import OpenViking.Index.RangedMap

namespace OpenViking.Index

variable {D : Type} [LinearOrder D]

namespace Slot

/-- Every value of one slot is at most every value of the other. -/
theorem right_le_left_iff {s t : Slot D} :
    s.right ≤ t.left ↔ ∀ e ∈ s.entries, ∀ e' ∈ t.entries, e.1 ≤ e'.1 := by
  constructor
  · intro h e he e' he'
    exact (s.le_right he).trans (h.trans (t.left_le he'))
  · intro h
    exact h _ (List.getLast_mem s.ne_nil) _ (List.head_mem t.ne_nil)

/-- `value_vec.insert(upper_bound(value), value)` -/
def insertValue (s : Slot D) (value : D) (offset : Nat) : Slot D where
  entries := s.entries.takeWhile (·.1 ≤ value) ++
    (value, offset) :: s.entries.dropWhile (·.1 ≤ value)
  ne_nil := by simp
  sorted := by
    have hs := s.sorted
    rw [← List.takeWhile_append_dropWhile (p := fun e => decide (e.1 ≤ value)) (l := s.entries),
      List.pairwise_append] at hs
    obtain ⟨hfront, hback, hcross⟩ := hs
    have hanti : ∀ a b : D × Nat, a.1 ≤ b.1 → decide (b.1 ≤ value) = true →
        decide (a.1 ≤ value) = true :=
      fun a b hab hb => decide_eq_true (hab.trans (of_decide_eq_true hb))
    refine List.pairwise_append.mpr ⟨hfront, List.pairwise_cons.mpr ⟨?_, hback⟩, ?_⟩
    · intro e he
      exact (not_le.mp (of_decide_eq_false ((mem_dropWhile_of_sorted hanti s.sorted).mp he).2)).le
    · intro e he e' he'
      rcases List.mem_cons.mp he' with rfl | he'
      · exact of_decide_eq_true ((mem_takeWhile_of_sorted hanti s.sorted).mp he).2
      · exact hcross e he e' he'

theorem mem_insertValue {s : Slot D} {value : D} {offset : Nat} {e : D × Nat} :
    e ∈ (s.insertValue value offset).entries ↔ e = (value, offset) ∨ e ∈ s.entries := by
  conv_rhs => rw [← List.takeWhile_append_dropWhile (p := fun e => decide (e.1 ≤ value))
    (l := s.entries)]
  simp only [insertValue, List.mem_append, List.mem_cons]
  tauto

/-- `kRangedMapSlotSize` -/
def slotSize : Nat := 10000

/-- `split_half_to_new_slot`, when the slot is too large -/
def pieces (s : Slot D) : List (Slot D) :=
  if h : 2 * slotSize < s.entries.length then
    [⟨s.entries.take (s.entries.length / 2),
        List.ne_nil_of_length_pos (by simp only [slotSize] at h; rw [List.length_take]; omega),
        s.sorted.sublist (List.take_sublist _ _)⟩,
     ⟨s.entries.drop (s.entries.length / 2),
        List.ne_nil_of_length_pos (by simp only [slotSize] at h; rw [List.length_drop]; omega),
        s.sorted.sublist (List.drop_sublist _ _)⟩]
  else [s]

theorem mem_pieces {s p : Slot D} (hp : p ∈ s.pieces) {e : D × Nat} (he : e ∈ p.entries) :
    e ∈ s.entries := by
  unfold pieces at hp
  split at hp
  · rcases List.mem_pair.mp hp with rfl | rfl
    · exact List.mem_of_mem_take he
    · exact List.mem_of_mem_drop he
  · rw [List.mem_singleton.mp hp] at he
    exact he

theorem sorted_pieces (s : Slot D) : s.pieces.Pairwise fun a b => a.right ≤ b.left := by
  unfold pieces
  split
  · refine List.pairwise_pair.mpr (right_le_left_iff.mpr fun e he e' he' => ?_)
    have hs := s.sorted
    rw [← List.take_append_drop (s.entries.length / 2) s.entries, List.pairwise_append] at hs
    exact hs.2.2 e he e' he'
  · exact List.pairwise_singleton _ _

end Slot

namespace RangedMap

/-- Slots in order, one of them replaced by others in its place. -/
theorem sorted_replace {slots pieces : List (Slot D)} {i : Nat}
    (hslots : slots.Pairwise fun s t => s.right ≤ t.left)
    (hpieces : pieces.Pairwise fun s t => s.right ≤ t.left)
    (hbefore : ∀ s ∈ slots.take i, ∀ p ∈ pieces, s.right ≤ p.left)
    (hafter : ∀ p ∈ pieces, ∀ t ∈ slots.drop (i + 1), p.right ≤ t.left) :
    (slots.take i ++ pieces ++ slots.drop (i + 1)).Pairwise fun s t => s.right ≤ t.left := by
  have hcross : ∀ s ∈ slots.take i, ∀ t ∈ slots.drop (i + 1), s.right ≤ t.left := by
    have h := hslots
    rw [← List.take_append_drop i slots, List.pairwise_append] at h
    intro s hs t ht
    refine h.2.2 s hs t ?_
    rw [← List.drop_drop] at ht
    exact List.mem_of_mem_drop ht
  refine List.pairwise_append.mpr ⟨List.pairwise_append.mpr
    ⟨hslots.sublist (List.take_sublist _ _), hpieces, hbefore⟩,
    hslots.sublist (List.drop_sublist _ _), ?_⟩
  intro s hs t ht
  rcases List.mem_append.mp hs with hs | hs
  · exact hcross s hs t ht
  · exact hafter s hs t ht

theorem getElem?_of_mem_take {slots : List (Slot D)} {i : Nat} {s : Slot D}
    (h : s ∈ slots.take i) : ∃ j, j < i ∧ slots[j]? = some s := by
  obtain ⟨j, hj⟩ := List.mem_iff_getElem?.mp h
  rw [List.getElem?_take] at hj
  split at hj
  · next hlt => exact ⟨j, hlt, hj⟩
  · cases hj

theorem getElem?_of_mem_drop {slots : List (Slot D)} {i : Nat} {s : Slot D}
    (h : s ∈ slots.drop i) : ∃ j, i ≤ j ∧ slots[j]? = some s := by
  obtain ⟨j, hj⟩ := List.mem_iff_getElem?.mp h
  rw [List.getElem?_drop] at hj
  exact ⟨i + j, by omega, hj⟩

variable (m : RangedMap D)

/-- `offset_to_value_[offset] = value`, the vector grown as needed -/
def setValue (offset : Nat) (value : Option D) : List (Option D) :=
  (m.offsetToValue ++ List.replicate (offset + 1 - m.offsetToValue.length) none).set offset value

/-- The slot a value is added to -/
def addSlotIndex (value : D) : Nat := (m.findRightSlotIndex value true).getD 0

theorem sorted_add {value : D} {offset : Nat} {s : Slot D}
    (hs : m.slots[m.addSlotIndex value]? = some s) :
    (m.slots.take (m.addSlotIndex value) ++ (s.insertValue value offset).pieces ++
      m.slots.drop (m.addSlotIndex value + 1)).Pairwise fun s t => s.right ≤ t.left := by
  refine sorted_replace m.sorted (Slot.sorted_pieces _) (fun t ht p hp => ?_)
    (fun p hp t ht => ?_)
  · obtain ⟨j, hj, htj⟩ := getElem?_of_mem_take ht
    have hts : t.right ≤ s.left := right_le_left htj hs hj
    -- the slot found begins at or below the value
    have hval : s.left ≤ value := by
      obtain ⟨r, hr⟩ : ∃ r, m.findRightSlotIndex value true = some r :=
        Option.ne_none_iff_exists'.mp fun hno => by
          rw [addSlotIndex, hno] at hj
          exact absurd hj (Nat.not_lt_zero j)
      have hidx : m.addSlotIndex value = r := by rw [addSlotIndex, hr, Option.getD_some]
      exact of_decide_eq_true ((findRightSlotIndex_spec hs).mp ⟨r, hr, hidx.le⟩)
    refine Slot.right_le_left_iff.mpr fun e he e' he' => ?_
    rcases Slot.mem_insertValue.mp (Slot.mem_pieces hp he') with rfl | he'
    · exact (t.le_right he).trans (hts.trans hval)
    · exact (t.le_right he).trans (hts.trans (s.left_le he'))
  · obtain ⟨j, hj, htj⟩ := getElem?_of_mem_drop ht
    have hst : s.right ≤ t.left := right_le_left hs htj (by omega)
    -- the slots after it begin beyond
    have hval : value ≤ t.left := by
      by_contra hlt
      have hbelow : below true t.left value = true := decide_eq_true (not_le.mp hlt).le
      obtain ⟨r, hr, hjr⟩ := (findRightSlotIndex_spec htj).mpr hbelow
      rw [addSlotIndex, hr, Option.getD_some] at hj
      omega
    refine Slot.right_le_left_iff.mpr fun e he e' he' => ?_
    rcases Slot.mem_insertValue.mp (Slot.mem_pieces hp he) with rfl | he
    · exact hval.trans (t.left_le he')
    · exact (s.le_right he).trans (hst.trans (t.left_le he'))

/-- `add_offset_and_score`: an offset that has a value is refused. -/
def addOffsetAndScore (offset : Nat) (value : D) : Bool × RangedMap D :=
  if (m.valueAt offset).isSome then (false, m)
  else
    match hs : m.slots[m.addSlotIndex value]? with
    | none =>
        (true, ⟨[⟨[(value, offset)], List.cons_ne_nil _ _, List.pairwise_singleton _ _⟩],
          m.setValue offset (some value), List.pairwise_singleton _ _⟩)
    | some s =>
        (true, ⟨m.slots.take (m.addSlotIndex value) ++ (s.insertValue value offset).pieces ++
          m.slots.drop (m.addSlotIndex value + 1), m.setValue offset (some value),
          m.sorted_add hs⟩)

/-- What is left of a slot -/
def remaining (s : Slot D) (entries : List (D × Nat)) (h : entries.Sublist s.entries) :
    List (Slot D) :=
  if hne : entries = [] then [] else [⟨entries, hne, s.sorted.sublist h⟩]

theorem sorted_remaining {i : Nat} {s : Slot D} (hs : m.slots[i]? = some s)
    {entries : List (D × Nat)} (h : entries.Sublist s.entries) :
    (m.slots.take i ++ remaining s entries h ++ m.slots.drop (i + 1)).Pairwise
      fun s t => s.right ≤ t.left := by
  have hmem : ∀ p ∈ remaining s entries h, ∀ e ∈ p.entries, e ∈ s.entries := by
    intro p hp e he
    unfold remaining at hp
    split at hp
    · cases hp
    · rw [List.mem_singleton.mp hp] at he
      exact h.subset he
  refine sorted_replace m.sorted ?_ (fun t ht p hp => ?_) (fun p hp t ht => ?_)
  · unfold remaining
    split
    · exact List.Pairwise.nil
    · exact List.pairwise_singleton _ _
  · obtain ⟨j, hj, htj⟩ := getElem?_of_mem_take ht
    have hts := Slot.right_le_left_iff.mp (right_le_left htj hs hj)
    exact Slot.right_le_left_iff.mpr fun e he e' he' => hts e he e' (hmem p hp e' he')
  · obtain ⟨j, hj, htj⟩ := getElem?_of_mem_drop ht
    have hst := Slot.right_le_left_iff.mp (right_le_left hs htj (by omega))
    exact Slot.right_le_left_iff.mpr fun e he e' he' => hst e (hmem p hp e he) e' he'

/-- The entries of a slot without the one of the offset, looked for from the
value on. -/
def withoutOffset (s : Slot D) (value : D) (offset : Nat) : List (D × Nat) :=
  s.entries.takeWhile (·.1 < value) ++ (s.entries.dropWhile (·.1 < value)).eraseP (·.2 = offset)

theorem withoutOffset_sublist (s : Slot D) (value : D) (offset : Nat) :
    (withoutOffset s value offset).Sublist s.entries := by
  conv_rhs => rw [← List.takeWhile_append_dropWhile (p := fun e => decide (e.1 < value))
    (l := s.entries)]
  exact (List.Sublist.refl _).append List.eraseP_sublist

/-- The first slot from the left one of the value on that has the offset -/
def deleteSlotIndex (value : D) (offset : Nat) : Nat :=
  let left := m.findLeftSlotIndex value true
  left + (m.slots.drop left).findIdx fun s => s.bitmap.isset offset

/-- `delete_offset` -/
def deleteOffset (offset : Nat) : Bool × RangedMap D :=
  match m.valueAt offset with
  | none => (false, m)
  | some value =>
      match hs : m.slots[m.deleteSlotIndex value offset]? with
      | none => (false, { m with offsetToValue := m.setValue offset none })
      | some s =>
          (true, ⟨m.slots.take (m.deleteSlotIndex value offset) ++
              remaining s (withoutOffset s value offset) (withoutOffset_sublist s value offset) ++
              m.slots.drop (m.deleteSlotIndex value offset + 1),
            m.setValue offset none, m.sorted_remaining hs _⟩)

def empty : RangedMap D := ⟨[], [], List.Pairwise.nil⟩

end RangedMap

end OpenViking.Index
