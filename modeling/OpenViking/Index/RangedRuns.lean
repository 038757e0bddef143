/-
# `OpenViking.Index.RangedRuns` — a ranged map is a finite map

`bitmap_holder/ranged_map.cpp` over a whole history of additions and deletions.
The abstract object is the value every offset has at the moment; `Agrees` says
that the table `offset_to_value_` and the entries of the slots both hold it, and
that no offset is entered twice.

    `Agrees.add`, `Agrees.delete`   what one call does to it
    `Agrees.range`                  a range query selects by the current value
    `Agrees.topk`                   the top-k loop returns the first by value
    `run_refines`                   both, for every history of the offsets that
                                    the callers pass

`add_offset_and_score` resizes the table to `offset + 1`, a `uint32_t`, and would
write beside it for the last offset there is.  The callers hold offsets as `int`
and pass non-negative ones, so it is never met.
-/
import OpenViking.Index.RangedUpdate
import OpenViking.Index.Sorter
import Mathlib.Data.Set.Card

namespace OpenViking.Index

variable {D : Type} [LinearOrder D]

namespace Slot

theorem insertValue_perm (s : Slot D) (value : D) (offset : Nat) :
    (s.insertValue value offset).entries.Perm ((value, offset) :: s.entries) := by
  unfold insertValue
  refine List.perm_middle.trans ?_
  rw [List.takeWhile_append_dropWhile]

theorem flatMap_pieces (s : Slot D) : s.pieces.flatMap entries = s.entries := by
  unfold pieces
  split
  · rw [List.flatMap_cons, List.flatMap_cons, List.flatMap_nil, List.append_nil]
    exact List.take_append_drop _ _
  · rw [List.flatMap_cons, List.flatMap_nil, List.append_nil]

end Slot

namespace RangedMap

variable {m : RangedMap D}

/-! ## The entries -/

theorem slots_eq_of_getElem? {i : Nat} {s : Slot D} (hs : m.slots[i]? = some s) :
    m.slots = m.slots.take i ++ s :: m.slots.drop (i + 1) := by
  obtain ⟨hlt, rfl⟩ := List.getElem?_eq_some_iff.mp hs
  rw [← List.drop_eq_getElem_cons hlt, List.take_append_drop]

/-- One slot taken out of the entries. -/
theorem entries_perm {i : Nat} {s : Slot D} (hs : m.slots[i]? = some s) :
    m.entries.Perm (s.entries ++
      (m.slots.take i ++ m.slots.drop (i + 1)).flatMap Slot.entries) := by
  have h : m.entries = (m.slots.take i).flatMap Slot.entries ++
      (s.entries ++ (m.slots.drop (i + 1)).flatMap Slot.entries) := by
    unfold entries
    conv_lhs => rw [slots_eq_of_getElem? hs]
    rw [List.flatMap_append, List.flatMap_cons]
  rw [h, List.flatMap_append, ← List.append_assoc, ← List.append_assoc]
  exact List.perm_append_comm.append_right _

/-- And other slots put in its place. -/
theorem flatMap_replace_perm (i : Nat) (pieces : List (Slot D)) :
    ((m.slots.take i ++ pieces ++ m.slots.drop (i + 1)).flatMap Slot.entries).Perm
      (pieces.flatMap Slot.entries ++
        (m.slots.take i ++ m.slots.drop (i + 1)).flatMap Slot.entries) := by
  rw [List.flatMap_append, List.flatMap_append, List.flatMap_append, ← List.append_assoc]
  exact List.perm_append_comm.append_right _

theorem entries_sorted (m : RangedMap D) : m.entries.Pairwise fun a b => a.1 ≤ b.1 := by
  unfold entries
  rw [List.pairwise_flatMap]
  refine ⟨fun s _ => s.sorted, m.sorted.imp fun {s t} hst => ?_⟩
  exact Slot.right_le_left_iff.mp hst

theorem valueAt_of_setValue (offset : Nat) (value : Option D) (o : Nat) :
    (m.setValue offset value).getD o none = if o = offset then value else m.valueAt o := by
  unfold setValue valueAt
  rw [List.getD_eq_getElem?_getD, List.getD_eq_getElem?_getD]
  by_cases ho : o = offset
  · subst ho
    rw [if_pos rfl, List.getElem?_set_self (by
      rw [List.length_append, List.length_replicate]
      omega), Option.getD_some]
  · rw [if_neg ho, List.getElem?_set_ne (Ne.symm ho)]
    by_cases hlt : o < m.offsetToValue.length
    · rw [List.getElem?_append_left hlt]
    · rw [List.getElem?_append_right (Nat.le_of_not_lt hlt),
        List.getElem?_eq_none (Nat.le_of_not_lt hlt)]
      cases hr : (List.replicate (offset + 1 - m.offsetToValue.length) (none : Option D))[
          o - m.offsetToValue.length]? with
      | none => rfl
      | some v =>
          rw [List.eq_of_mem_replicate (List.mem_of_getElem? hr)]
          rfl

/-! ## Agreement with a finite map -/

/-- The table and the slots hold the values of a finite map. -/
structure Agrees (m : RangedMap D) (cur : Nat → Option D) : Prop where
  value : ∀ o, m.valueAt o = cur o
  mem : ∀ v o, (v, o) ∈ m.entries ↔ cur o = some v
  nodup : (m.entries.map Prod.snd).Nodup

theorem agrees_empty : Agrees (empty : RangedMap D) fun _ => none where
  value _ := rfl
  mem v o := by
    constructor
    · intro h
      cases h
    · intro h
      cases h
  nodup := List.nodup_nil

/-- An addition that is refused changes nothing, another enters the value. -/
def added (cur : Nat → Option D) (offset : Nat) (value : D) : Nat → Option D :=
  if (cur offset).isSome then cur else Function.update cur offset (some value)

theorem addSlotIndex_lt (h : m.slots ≠ []) (value : D) : m.addSlotIndex value < m.slots.length := by
  unfold addSlotIndex
  cases hr : m.findRightSlotIndex value true with
  | none => exact List.length_pos_iff.mpr h
  | some r => exact findRightSlotIndex_lt hr

theorem entries_add_perm {offset : Nat} (hfree : m.valueAt offset = none) (value : D) :
    (m.addOffsetAndScore offset value).2.entries.Perm ((value, offset) :: m.entries) := by
  unfold addOffsetAndScore
  rw [hfree, Option.isSome_none, if_neg Bool.false_ne_true]
  split
  · next hnone =>
      have hnil : m.slots = [] := by
        by_contra hne
        rw [List.getElem?_eq_getElem (addSlotIndex_lt hne value)] at hnone
        cases hnone
      have hentries : m.entries = [] := by
        unfold entries
        rw [hnil]
        rfl
      rw [hentries]
      exact List.Perm.refl _
  · next s hs =>
      refine (flatMap_replace_perm _ _).trans ?_
      rw [Slot.flatMap_pieces]
      refine ((s.insertValue_perm value offset).append_right _).trans ?_
      exact ((entries_perm hs).symm.cons _)

theorem valueAt_add {offset : Nat} (hfree : m.valueAt offset = none) (value : D) (o : Nat) :
    (m.addOffsetAndScore offset value).2.valueAt o =
      if o = offset then some value else m.valueAt o := by
  have htable : (m.addOffsetAndScore offset value).2.offsetToValue =
      m.setValue offset (some value) := by
    unfold addOffsetAndScore
    rw [hfree, Option.isSome_none, if_neg Bool.false_ne_true]
    split
    · rfl
    · rfl
  rw [valueAt, htable, valueAt_of_setValue]

variable {cur : Nat → Option D}

theorem Agrees.add (h : Agrees m cur) (offset : Nat) (value : D) :
    Agrees (m.addOffsetAndScore offset value).2 (added cur offset value) := by
  unfold added
  by_cases hsome : (cur offset).isSome = true
  · have hsame : (m.addOffsetAndScore offset value).2 = m := by
      unfold addOffsetAndScore
      rw [h.value, if_pos hsome]
    rw [hsame, if_pos hsome]
    exact h
  · rw [if_neg hsome]
    have hnone : cur offset = none := by
      cases hc : cur offset with
      | none => rfl
      | some v => exact absurd (by rw [hc]; rfl) hsome
    have hfree : m.valueAt offset = none := (h.value offset).trans hnone
    have hperm := entries_add_perm hfree value
    refine ⟨?_, ?_, ?_⟩
    · intro o
      rw [valueAt_add hfree, h.value]
      by_cases ho : o = offset
      · rw [if_pos ho, ho, Function.update_self]
      · rw [if_neg ho, Function.update_of_ne ho]
    · intro v o
      rw [hperm.mem_iff, List.mem_cons, h.mem, Prod.mk.injEq]
      by_cases ho : o = offset
      · rw [ho, Function.update_self, hnone, Option.some.injEq]
        constructor
        · rintro (⟨rfl, -⟩ | hc)
          · rfl
          · cases hc
        · rintro rfl
          exact Or.inl ⟨rfl, rfl⟩
      · rw [Function.update_of_ne ho]
        exact or_iff_right fun hc => ho hc.2
    · rw [(hperm.map Prod.snd).nodup_iff, List.map_cons, List.nodup_cons]
      refine ⟨?_, h.nodup⟩
      intro hin
      obtain ⟨e, he, hoff⟩ := List.mem_map.mp hin
      have := (h.mem e.1 e.2).mp he
      rw [hoff, hnone] at this
      cases this

/-! ### Deletion -/

theorem mem_bitmap {s : Slot D} {o : Nat} :
    s.bitmap.isset o = true ↔ ∃ v, (v, o) ∈ s.entries := by
  rw [Bitmap.isset_eq_true, Slot.elems_bitmap, List.mem_toFinset, List.mem_map]
  constructor
  · rintro ⟨e, he, rfl⟩
    exact ⟨e.1, he⟩
  · rintro ⟨v, hv⟩
    exact ⟨_, hv, rfl⟩

/-- The search for the slot ends at the one with the entry. -/
theorem Agrees.deleteSlot (h : Agrees m cur) {offset : Nat} {value : D}
    (hcur : cur offset = some value) :
    ∃ s, m.slots[m.deleteSlotIndex value offset]? = some s ∧ (value, offset) ∈ s.entries := by
  obtain ⟨j, t, ht, hmem⟩ := mem_entries.mp ((h.mem value offset).mpr hcur)
  have hleft : m.findLeftSlotIndex value true ≤ j := by
    rw [findLeftSlotIndex_le_iff ht]
    exact decide_eq_true (t.le_right hmem)
  unfold deleteSlotIndex
  dsimp only
  generalize m.findLeftSlotIndex value true = left at hleft
  have hdrop : t ∈ m.slots.drop left := by
    refine List.mem_iff_getElem?.mpr ⟨j - left, ?_⟩
    rw [List.getElem?_drop, Nat.add_sub_cancel' hleft]
    exact ht
  have hlt : (m.slots.drop left).findIdx (fun s => s.bitmap.isset offset) <
      (m.slots.drop left).length :=
    List.findIdx_lt_length_of_exists ⟨t, hdrop, mem_bitmap.mpr ⟨value, hmem⟩⟩
  have hfound := List.findIdx_getElem (w := hlt)
  have hslot := List.getElem?_eq_getElem hlt
  generalize (m.slots.drop left)[(m.slots.drop left).findIdx fun s => s.bitmap.isset offset] = s
    at hfound hslot
  refine ⟨s, ?_, ?_⟩
  · rw [← List.getElem?_drop]
    exact hslot
  · obtain ⟨v, hv⟩ := mem_bitmap.mp hfound
    have hin : (v, offset) ∈ m.entries := by
      unfold entries
      exact List.mem_flatMap.mpr ⟨s, List.mem_of_mem_drop (List.mem_of_getElem? hslot), hv⟩
    have := (h.mem v offset).mp hin
    rw [hcur] at this
    cases this
    exact hv

/-- The entry that goes is the one of the offset. -/
theorem withoutOffset_perm {s : Slot D} {value : D} {offset : Nat}
    (hmem : (value, offset) ∈ s.entries) (hone : ∀ v, (v, offset) ∈ s.entries → v = value) :
    s.entries.Perm ((value, offset) :: withoutOffset s value offset) := by
  have hanti : ∀ a b : D × Nat, a.1 ≤ b.1 → decide (b.1 < value) = true →
      decide (a.1 < value) = true :=
    fun a b hab hb => decide_eq_true (hab.trans_lt (of_decide_eq_true hb))
  have hback : (value, offset) ∈ s.entries.dropWhile (·.1 < value) :=
    (mem_dropWhile_of_sorted hanti s.sorted).mpr ⟨hmem, decide_eq_false (lt_irrefl value)⟩
  obtain ⟨a, l, r, -, ha, hsplit, herase⟩ := List.exists_of_eraseP
    (p := fun e : D × Nat => decide (e.2 = offset)) hback (decide_eq_true rfl)
  have hain : a ∈ s.entries := by
    refine (List.dropWhile_sublist fun e : D × Nat => decide (e.1 < value)).subset ?_
    rw [hsplit]
    exact List.mem_append_right _ List.mem_cons_self
  have haeq : a = (value, offset) := by
    have hoff : a.2 = offset := of_decide_eq_true ha
    rw [← hoff] at hone
    exact Prod.ext (hone a.1 hain) hoff
  unfold withoutOffset
  rw [herase]
  conv_lhs => rw [← List.takeWhile_append_dropWhile (p := fun e => decide (e.1 < value))
    (l := s.entries)]
  rw [hsplit, haeq, ← List.append_assoc, ← List.append_assoc]
  exact List.perm_middle

theorem flatMap_remaining {s : Slot D} {entries : List (D × Nat)} (h : entries.Sublist s.entries) :
    (remaining s entries h).flatMap Slot.entries = entries := by
  unfold remaining
  split
  · next hnil => rw [hnil]; rfl
  · rw [List.flatMap_cons, List.flatMap_nil, List.append_nil]

theorem Agrees.delete (h : Agrees m cur) (offset : Nat) :
    Agrees (m.deleteOffset offset).2 (Function.update cur offset none) := by
  cases hcur : cur offset with
  | none =>
      have hsame : Function.update cur offset none = cur := by
        rw [← hcur, Function.update_eq_self]
      have hdelete : (m.deleteOffset offset).2 = m := by
        unfold deleteOffset
        split
        · rfl
        · next value hvalue =>
            rw [h.value, hcur] at hvalue
            cases hvalue
      rw [hsame, hdelete]
      exact h
  | some value =>
      obtain ⟨s, hs, hmem⟩ := h.deleteSlot hcur
      have hin : ∀ v, (v, offset) ∈ s.entries → v = value := by
        intro v hv
        have := (h.mem v offset).mp (mem_entries.mpr ⟨_, s, hs, hv⟩)
        rw [hcur] at this
        exact (Option.some.inj this).symm
      have hperm : m.entries.Perm ((value, offset) :: (m.deleteOffset offset).2.entries) := by
        refine (entries_perm hs).trans ?_
        refine ((withoutOffset_perm hmem hin).append_right _).trans ?_
        refine List.Perm.cons _ ?_
        unfold deleteOffset
        split
        · next hnone =>
            rw [h.value, hcur] at hnone
            cases hnone
        · next value' hvalue =>
            rw [h.value, hcur] at hvalue
            cases hvalue
            split
            · next hnone =>
                rw [hs] at hnone
                cases hnone
            · next s' hs' =>
                cases hs.symm.trans hs'
                refine List.Perm.trans ?_ (flatMap_replace_perm _ _).symm
                rw [flatMap_remaining]
                exact List.Perm.refl _
      have htable : ∀ o, (m.deleteOffset offset).2.valueAt o =
          if o = offset then none else m.valueAt o := by
        intro o
        rw [← valueAt_of_setValue]
        unfold deleteOffset
        split
        · next hnone =>
            rw [h.value, hcur] at hnone
            cases hnone
        · split
          · rfl
          · rfl
      have hnodup := h.nodup
      rw [(hperm.map Prod.snd).nodup_iff, List.map_cons, List.nodup_cons] at hnodup
      refine ⟨?_, ?_, hnodup.2⟩
      · intro o
        rw [htable, h.value]
        by_cases ho : o = offset
        · rw [if_pos ho, ho, Function.update_self]
        · rw [if_neg ho, Function.update_of_ne ho]
      · intro v o
        have hiff := h.mem v o
        rw [hperm.mem_iff, List.mem_cons, Prod.mk.injEq] at hiff
        by_cases ho : o = offset
        · subst ho
          rw [Function.update_self]
          refine iff_of_false ?_ fun hc => by cases hc
          intro hv
          exact hnodup.1 (List.mem_map.mpr ⟨_, hv, rfl⟩)
        · rw [Function.update_of_ne ho, ← hiff]
          exact (or_iff_right fun hc => ho hc.2).symm

/-! ## Queries -/

/-- Inside the bounds, or outside. -/
def Bounds.Selects (bs : Bounds D) (rangeOut : Bool) (v : D) : Prop :=
  if rangeOut then ¬ bs.Holds v else bs.Holds v

theorem Agrees.range (h : Agrees m cur) {bs : Bounds D} (hbounds : bs.greaterThan ≤ bs.lowerThan)
    (rangeOut : Bool) (o : Nat) :
    o ∈ (m.getRangeBitmap rangeOut bs).elems ↔ ∃ v, cur o = some v ∧ bs.Selects rangeOut v := by
  have horient : bs.orient true = bs := by
    unfold Bounds.orient
    rw [if_neg]
    rw [Bool.true_and, decide_eq_true_eq]
    exact not_lt.mpr hbounds
  rw [mem_getRangeBitmap]
  refine exists_congr fun v => ?_
  rw [h.mem]
  unfold Bounds.Wants Bounds.Selects
  rw [horient]

/-! ### The top-k loops -/

/-- The inner loop of `get_topk_result_with_slot_data`: the entries it takes, and the count. -/
def takeSlot (topk : Nat) (filtered : Nat → Bool) : List (D × Nat) → Nat → List (D × Nat) × Nat
  | [], cnt => ([], cnt)
  | e :: es, cnt =>
      if filtered e.2 then takeSlot topk filtered es cnt
      else if topk ≤ cnt + 1 then ([e], cnt + 1)
      else
        let (rest, cnt') := takeSlot topk filtered es (cnt + 1)
        (e :: rest, cnt')

/-- The outer loop, over the slots in the order they are visited. -/
def takeSlots (topk : Nat) (filtered : Nat → Bool) : List (List (D × Nat)) → Nat → List (D × Nat)
  | [], _ => []
  | run :: runs, cnt =>
      if cnt < topk then
        let (found, cnt') := takeSlot topk filtered run cnt
        found ++ takeSlots topk filtered runs cnt'
      else []

/-- `get_topk_result_with_slot_data`, slot by slot. -/
def getTopkResultWithSlotData (m : RangedMap D) (topk : Int) (orderAsc : Bool)
    (filtered : Nat → Bool) : Except Fault (RecallResult D) :=
  if topk < 0 then .error .lengthError
  else
    let runs := if orderAsc then m.slots.map Slot.entries
      else (m.slots.map fun s => s.entries.reverse).reverse
    let found := takeSlots topk.toNat filtered runs 0
    .ok ⟨found.map Prod.snd, found.map fun e => some e.1⟩

omit [LinearOrder D] in
theorem takeSlot_eq {topk : Nat} {filtered : Nat → Bool} {es : List (D × Nat)} {cnt : Nat}
    (hcnt : cnt < topk) :
    takeSlot topk filtered es cnt =
      ((es.filter fun e => !filtered e.2).take (topk - cnt),
        cnt + ((es.filter fun e => !filtered e.2).take (topk - cnt)).length) := by
  induction es generalizing cnt with
  | nil =>
      rw [List.filter_nil, List.take_nil]
      rfl
  | cons e es ih =>
      unfold takeSlot
      by_cases hf : filtered e.2 = true
      · rw [if_pos hf, ih hcnt, List.filter_cons_of_neg (by rw [hf]; exact Bool.false_ne_true)]
      · rw [if_neg hf, List.filter_cons_of_pos (by
          rw [Bool.not_eq_true', Bool.eq_false_iff]
          exact hf)]
        by_cases hlast : topk ≤ cnt + 1
        · have hone : topk - cnt = 1 := by omega
          rw [if_pos hlast, hone]
          rfl
        · have hmore : topk - cnt = topk - (cnt + 1) + 1 := by omega
          rw [if_neg hlast, ih (Nat.lt_of_not_le hlast), hmore, List.take_succ_cons]
          dsimp only
          rw [List.length_cons, Nat.add_right_comm cnt]
          rfl

omit [LinearOrder D] in
theorem takeSlots_eq {topk : Nat} {filtered : Nat → Bool} {runs : List (List (D × Nat))}
    {cnt : Nat} :
    takeSlots topk filtered runs cnt =
      (runs.flatten.filter fun e => !filtered e.2).take (topk - cnt) := by
  induction runs generalizing cnt with
  | nil => exact (List.take_nil).symm
  | cons run runs ih =>
      unfold takeSlots
      by_cases hcnt : cnt < topk
      · rw [if_pos hcnt, takeSlot_eq hcnt]
        dsimp only
        rw [ih, List.flatten_cons, List.filter_append, List.take_append, List.length_take]
        congr 2
        omega
      · rw [if_neg hcnt, Nat.sub_eq_zero_of_le (Nat.le_of_not_lt hcnt)]
        rfl

/-- The two loops take the first entries of the map that are not filtered out. -/
theorem getTopkResultWithSlotData_eq (m : RangedMap D) (topk : Int) (orderAsc : Bool)
    (filtered : Nat → Bool) :
    m.getTopkResultWithSlotData topk orderAsc filtered =
      m.getTopkResult topk orderAsc filtered := by
  have hruns : (if orderAsc then m.slots.map Slot.entries
      else (m.slots.map fun s => s.entries.reverse).reverse).flatten =
      if orderAsc then m.entries else m.entries.reverse := by
    cases orderAsc with
    | true => rfl
    | false =>
        unfold entries
        rw [List.flatMap_def, List.reverse_flatten, List.map_map]
        rfl
  unfold getTopkResultWithSlotData getTopkResult
  dsimp only
  rw [takeSlots_eq, hruns, Nat.sub_zero]

/-- The first of two values in the order of the sort -/
def InOrder (orderAsc : Bool) (a b : D) : Prop := if orderAsc then a ≤ b else b ≤ a

/-- What a top-k query should answer: as many of the matching offsets as are asked for, in
order, and none before them is left out. -/
structure IsTopk (cur : Nat → Option D) (topk : Nat) (orderAsc : Bool) (filtered : Nat → Bool)
    (offsets : List Nat) : Prop where
  length : offsets.length = min topk {o | (cur o).isSome ∧ filtered o = false}.ncard
  nodup : offsets.Nodup
  found : ∀ o ∈ offsets, (cur o).isSome ∧ filtered o = false
  sorted : offsets.Pairwise fun o o' => ∀ v v', cur o = some v → cur o' = some v' →
    InOrder orderAsc v v'
  first : ∀ o ∈ offsets, ∀ o' ∉ offsets, filtered o' = false → ∀ v v', cur o = some v →
    cur o' = some v' → InOrder orderAsc v v'

/-- The entries in the order of the sort -/
def ordered (m : RangedMap D) (orderAsc : Bool) : List (D × Nat) :=
  if orderAsc then m.entries else m.entries.reverse

theorem ordered_perm (m : RangedMap D) (orderAsc : Bool) : (m.ordered orderAsc).Perm m.entries := by
  cases orderAsc with
  | true => exact List.Perm.refl _
  | false => exact List.reverse_perm _

theorem ordered_sorted (m : RangedMap D) (orderAsc : Bool) :
    (m.ordered orderAsc).Pairwise fun a b => InOrder orderAsc a.1 b.1 := by
  cases orderAsc with
  | true => exact m.entries_sorted
  | false => exact List.pairwise_reverse.mpr m.entries_sorted

/-- The first entries of all that match, put in order. -/
theorem isTopk_take {cur : Nat → Option D} {orderAsc : Bool} {filtered : Nat → Bool}
    {kept : List (D × Nat)} (hmem : ∀ v o, (v, o) ∈ kept ↔ cur o = some v ∧ filtered o = false)
    (hnodup : (kept.map Prod.snd).Nodup)
    (hsorted : kept.Pairwise fun a b => InOrder orderAsc a.1 b.1) (topk : Nat) :
    IsTopk cur topk orderAsc filtered ((kept.take topk).map Prod.snd) := by
  have hoffsets : ∀ o, o ∈ kept.map Prod.snd ↔ (cur o).isSome ∧ filtered o = false := by
    intro o
    rw [List.mem_map, Option.isSome_iff_exists]
    constructor
    · rintro ⟨e, he, rfl⟩
      have := (hmem e.1 e.2).mp he
      exact ⟨⟨e.1, this.1⟩, this.2⟩
    · rintro ⟨⟨v, hv⟩, hf⟩
      exact ⟨(v, o), (hmem v o).mpr ⟨hv, hf⟩, rfl⟩
  have hcard : {o | (cur o).isSome ∧ filtered o = false}.ncard = kept.length := by
    have hset : {o | (cur o).isSome ∧ filtered o = false} =
        ((kept.map Prod.snd).toFinset : Set Nat) := by
      ext o
      rw [Set.mem_ofPred_eq, List.coe_toFinset, Set.mem_ofPred_eq, hoffsets]
    rw [hset, Set.ncard_coe_finset, List.toFinset_card_of_nodup hnodup, List.length_map]
  have hvalue : ∀ e ∈ kept, ∀ v, cur e.2 = some v → e.1 = v := by
    intro e he v hv
    have := ((hmem e.1 e.2).mp he).1
    rw [hv] at this
    exact (Option.some.inj this).symm
  have hparts := hsorted
  rw [← List.take_append_drop topk kept, List.pairwise_append] at hparts
  constructor
  · rw [List.length_map, List.length_take, hcard]
  · exact hnodup.sublist ((List.take_sublist topk kept).map Prod.snd)
  · intro o ho
    rw [← hoffsets]
    exact ((List.take_sublist topk kept).map Prod.snd).subset ho
  · rw [List.pairwise_map]
    refine hparts.1.imp_of_mem fun {e e'} he he' hle v v' hv hv' => ?_
    rw [← hvalue e (List.mem_of_mem_take he) v hv, ← hvalue e' (List.mem_of_mem_take he') v' hv']
    exact hle
  · intro o ho o' ho' hf v v' hv hv'
    obtain ⟨e, he, rfl⟩ := List.mem_map.mp ho
    have hin' : (v', o') ∈ kept := (hmem v' o').mpr ⟨hv', hf⟩
    rw [← List.take_append_drop topk kept, List.mem_append] at hin'
    rcases hin' with hin' | hin'
    · exact absurd (List.mem_map.mpr ⟨_, hin', rfl⟩) ho'
    · rw [← hvalue e (List.mem_of_mem_take he) v hv]
      exact hparts.2.2 e he _ hin'

theorem Agrees.topk (h : Agrees m cur) (topk : Nat) (orderAsc : Bool) (filtered : Nat → Bool) :
    ∃ r, m.getTopkResultWithSlotData topk orderAsc filtered = .ok r ∧
      IsTopk cur topk orderAsc filtered r.offsets := by
  obtain ⟨kept, hkept⟩ : ∃ kept, kept = (m.ordered orderAsc).filter fun e => !filtered e.2 :=
    ⟨_, rfl⟩
  have hmem : ∀ v o, (v, o) ∈ kept ↔ cur o = some v ∧ filtered o = false := by
    intro v o
    rw [hkept, List.mem_filter, (m.ordered_perm orderAsc).mem_iff, h.mem, Bool.not_eq_true']
  have hnodup : (kept.map Prod.snd).Nodup := by
    have hall : ((m.ordered orderAsc).map Prod.snd).Nodup :=
      (((m.ordered_perm orderAsc).map Prod.snd).nodup_iff).mpr h.nodup
    rw [hkept]
    exact hall.sublist (List.filter_sublist.map Prod.snd)
  have hsorted : kept.Pairwise fun a b => InOrder orderAsc a.1 b.1 := by
    rw [hkept]
    exact (m.ordered_sorted orderAsc).sublist List.filter_sublist
  rw [getTopkResultWithSlotData_eq]
  refine ⟨⟨(kept.take topk).map Prod.snd, (kept.take topk).map fun e => some e.1⟩, ?_,
    isTopk_take hmem hnodup hsorted topk⟩
  unfold getTopkResult
  rw [if_neg (by omega), hkept]
  rfl

end RangedMap

/-- A call that changes the map -/
inductive RangedOp (D : Type)
  | add (offset : UInt32) (value : D)
  | delete (offset : UInt32)
  deriving DecidableEq

def RangedOp.offset : RangedOp D → UInt32
  | .add offset _ => offset
  | .delete offset => offset

namespace RangedMap

/-- `add_offset_and_score` with its table: resizing to `offset + 1` may leave no element
`offset`, which is then written. -/
def addOffset (m : RangedMap D) (offset : UInt32) (value : D) : Except Fault (RangedMap D) :=
  if (m.valueAt offset.toNat).isNone ∧ m.offsetToValue.length ≤ offset.toNat ∧
      (offset + 1).toNat ≤ offset.toNat then .error .outOfRange
  else .ok (m.addOffsetAndScore offset.toNat value).2

def step (m : RangedMap D) : RangedOp D → Except Fault (RangedMap D)
  | .add offset value => m.addOffset offset value
  | .delete offset => .ok (m.deleteOffset offset.toNat).2

def run (m : RangedMap D) (ops : List (RangedOp D)) : Except Fault (RangedMap D) :=
  ops.foldlM step m

/-- The current values, by the calls alone. -/
def current (cur : Nat → Option D) : List (RangedOp D) → Nat → Option D
  | [] => cur
  | .add offset value :: ops => current (added cur offset.toNat value) ops
  | .delete offset :: ops => current (Function.update cur offset.toNat none) ops

/-- The map answers every query by the current values. -/
structure Refines (m : RangedMap D) (cur : Nat → Option D) : Prop where
  range : ∀ (bs : Bounds D) rangeOut o, bs.greaterThan ≤ bs.lowerThan →
    (o ∈ (m.getRangeBitmap rangeOut bs).elems ↔ ∃ v, cur o = some v ∧ bs.Selects rangeOut v)
  topk : ∀ (k : Nat) orderAsc filtered, ∃ r,
    m.getTopkResultWithSlotData k orderAsc filtered = .ok r ∧
      IsTopk cur k orderAsc filtered r.offsets

theorem Agrees.refines {m : RangedMap D} {cur : Nat → Option D} (h : Agrees m cur) :
    Refines m cur :=
  ⟨fun _ rangeOut o hb => h.range hb rangeOut o, fun k asc filtered => h.topk k asc filtered⟩

/-! ### One call -/

/-- An offset that is not the last one has its place in the table. -/
theorem addOffset_eq_ok (m : RangedMap D) {offset : UInt32} (hroom : offset.toNat + 1 < 2 ^ 32)
    (value : D) : m.addOffset offset value = .ok (m.addOffsetAndScore offset.toNat value).2 := by
  unfold addOffset
  rw [if_neg]
  rintro ⟨-, -, hwrap⟩
  rw [UInt32.toNat_add, UInt32.toNat_one, Nat.mod_eq_of_lt hroom] at hwrap
  omega

/-- The values after a call. -/
def updated (cur : Nat → Option D) : RangedOp D → Nat → Option D
  | .add offset value => added cur offset.toNat value
  | .delete offset => Function.update cur offset.toNat none

omit [LinearOrder D] in
theorem current_cons (cur : Nat → Option D) (op : RangedOp D) (ops : List (RangedOp D)) :
    current cur (op :: ops) = current (updated cur op) ops := by
  cases op with
  | add offset value => rfl
  | delete offset => rfl

theorem step_eq_ok {m : RangedMap D} {cur : Nat → Option D} (h : Agrees m cur) {op : RangedOp D}
    (hop : op.offset.toNat < 2 ^ 31) :
    ∃ m', m.step op = .ok m' ∧ Agrees m' (updated cur op) := by
  cases op with
  | add offset value =>
      have hroom : offset.toNat < 2 ^ 31 := hop
      exact ⟨_, m.addOffset_eq_ok (by omega) value, h.add offset.toNat value⟩
  | delete offset => exact ⟨_, rfl, h.delete offset.toNat⟩

/-! ### Whole histories -/

/-- The induction is on the calls. -/
theorem run_eq_ok {m : RangedMap D} {cur : Nat → Option D} (h : Agrees m cur)
    {ops : List (RangedOp D)} (hops : ∀ op ∈ ops, op.offset.toNat < 2 ^ 31) :
    ∃ m', m.run ops = .ok m' ∧ Agrees m' (current cur ops) := by
  induction ops generalizing m cur with
  | nil => exact ⟨m, rfl, h⟩
  | cons op ops ih =>
      obtain ⟨m₁, hstep, h₁⟩ := step_eq_ok h (hops op List.mem_cons_self)
      obtain ⟨m', hrun, h'⟩ := ih h₁ fun o ho => hops o (List.mem_cons_of_mem _ ho)
      refine ⟨m', ?_, ?_⟩
      · rw [run, List.foldlM_cons, hstep]
        exact hrun
      · rw [current_cons]
        exact h'

/-- After every history of calls the map answers by the current values.  The offsets are those
of the callers: `add_row_data` and `delete_row_data` are called with a non-negative `int`. -/
theorem run_refines (ops : List (RangedOp D)) (hops : ∀ op ∈ ops, op.offset.toNat < 2 ^ 31) :
    ∃ m, run empty ops = .ok m ∧ Refines m (current (fun _ => none) ops) := by
  obtain ⟨m, hrun, h⟩ := run_eq_ok agrees_empty hops
  exact ⟨m, hrun, h.refines⟩

/-- Three offsets come, two of them with one value, one goes and comes back with another. -/
def threeOffsets : List (RangedOp Int) :=
  [.add 3 5, .add 1 2, .add 2147483647 5, .delete 3, .add 3 9]

theorem threeOffsets_refines : (∀ op ∈ threeOffsets, op.offset.toNat < 2 ^ 31) ∧
    ∃ m, run empty threeOffsets = .ok m ∧ Refines m (current (fun _ => none) threeOffsets) := by
  have hops : ∀ op ∈ threeOffsets, op.offset.toNat < 2 ^ 31 := by
    intro op hop
    simp only [threeOffsets, List.mem_cons, List.not_mem_nil, or_false] at hop
    rcases hop with rfl | rfl | rfl | rfl | rfl <;> decide
  exact ⟨hops, run_refines threeOffsets hops⟩

end RangedMap

end OpenViking.Index
