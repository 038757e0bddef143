/-
# `OpenViking.Lib.Filing` — a buffer and a map into it

A list of items, each with a key, and a map from the keys to the positions:
`Files m items key`.  Appending an item with a new key, changing an item but not
its key, and filling the place of a removed item with the last one keep the map
up to date; the keys are distinct, so an item is found by its key
(`Files.find_eq_some`).
-/
import Mathlib.Data.List.AList

namespace OpenViking.Lib

variable {α : Type} {m : AList (fun _ : Nat => Nat)} {items : List α} {key : α → Nat}

/-- The map has the position of every item under its key, and nothing else. -/
def Files (m : AList (fun _ : Nat => Nat)) (items : List α) (key : α → Nat) : Prop :=
  ∀ x i : Nat, m.lookup x = some i ↔ ∃ a, items[i]? = some a ∧ key a = x

/-- Look a key up and go to the position. -/
def find (m : AList (fun _ : Nat => Nat)) (items : List α) (x : Nat) : Option α :=
  (m.lookup x).bind (items[·]?)

/-- The items after the one at `i` has been overwritten with the last one. -/
def swapRemove (items : List α) (i : Nat) (last : α) : List α :=
  if i ≠ items.length - 1 then (items.set i last).dropLast else items.dropLast

/-- The map after the same. -/
def swapRemoveKey (m : AList (fun _ : Nat => Nat)) (items : List α) (key : α → Nat) (i : Nat)
    (removed last : α) : AList (fun _ : Nat => Nat) :=
  if i ≠ items.length - 1 then (m.erase (key removed)).insert (key last) i
  else m.erase (key removed)

namespace Files

theorem nil : Files ∅ ([] : List α) key := fun _ _ => by simp

theorem find_eq_some (h : Files m items key) {x : Nat} {a : α} :
    find m items x = some a ↔ a ∈ items ∧ key a = x := by
  rw [find, Option.bind_eq_some_iff]
  constructor
  · rintro ⟨i, hi, ha⟩
    obtain ⟨a', ha', hx⟩ := (h x i).mp hi
    cases ha.symm.trans ha'
    exact ⟨List.mem_of_getElem? ha, hx⟩
  · rintro ⟨ha, hx⟩
    obtain ⟨i, hi⟩ := List.mem_iff_getElem?.mp ha
    exact ⟨i, (h x i).mpr ⟨a, hi, hx⟩, hi⟩

theorem key_inj (h : Files m items key) {a b : α} (ha : a ∈ items) (hb : b ∈ items)
    (hk : key a = key b) : a = b :=
  Option.some.inj ((h.find_eq_some.mpr ⟨ha, hk⟩).symm.trans (h.find_eq_some.mpr ⟨hb, rfl⟩))

theorem lookup_eq_none (h : Files m items key) {x : Nat} :
    m.lookup x = none ↔ ∀ a ∈ items, key a ≠ x := by
  rw [Option.eq_none_iff_forall_ne_some]
  constructor
  · intro hx a ha hk
    obtain ⟨i, hi⟩ := List.mem_iff_getElem?.mp ha
    exact hx i ((h x i).mpr ⟨a, hi, hk⟩)
  · intro hx i hi
    obtain ⟨a, ha, hk⟩ := (h x i).mp hi
    exact hx a (List.mem_of_getElem? ha) hk

theorem append (h : Files m items key) {a : α} (hnew : m.lookup (key a) = none) :
    Files (m.insert (key a) items.length) (items ++ [a]) key := by
  have hget : ∀ i : Nat, (items ++ [a])[i]? = if i = items.length then some a else items[i]? := by
    intro i
    split
    · next hi => simp [hi]
    · next hi =>
        rw [List.getElem?_append]
        split
        · rfl
        · rw [List.getElem?_eq_none (by simp; omega), List.getElem?_eq_none (by omega)]
  intro x i
  rw [hget i]
  by_cases hx : x = key a
  · subst hx
    rw [AList.lookup_insert, Option.some.injEq]
    split
    · next hi => simp [hi]
    · next hi =>
        refine iff_of_false (fun e => hi e.symm) ?_
        rintro ⟨b, hb, hk⟩
        exact h.lookup_eq_none.mp hnew b (List.mem_of_getElem? hb) hk
  · rw [AList.lookup_insert_ne hx, h x i]
    split
    · next hi =>
        rw [hi, List.getElem?_eq_none le_rfl]
        refine iff_of_false (fun ⟨_, hb, _⟩ => nomatch hb) ?_
        rintro ⟨b, hb, hk⟩
        cases hb
        exact hx hk.symm
    · rfl

theorem modify (h : Files m items key) {i : Nat} {f : α → α}
    (hf : ∀ a, items[i]? = some a → key (f a) = key a) : Files m (items.modify i f) key := by
  intro x j
  rw [h x j, List.getElem?_modify]
  by_cases hj : i = j
  · subst hj
    cases hi : items[i]? with
    | none => simp
    | some a => simp [hf a hi]
  · simp [hj]

theorem getElem?_swapRemove {i : Nat} {removed last : α} (hi : items[i]? = some removed) (j : Nat) :
    (swapRemove items i last)[j]? =
      if j < items.length - 1 then if j = i then some last else items[j]? else none := by
  have hlen : i < items.length := (List.getElem?_eq_some_iff.mp hi).1
  unfold swapRemove
  by_cases hj : j < items.length - 1
  · rw [if_pos hj]
    split
    · next hne =>
        rw [List.getElem?_dropLast, if_pos (by simpa using hj), List.getElem?_set]
        by_cases hji : j = i
        · subst hji
          simp [hlen]
        · rw [if_neg (Ne.symm hji), if_neg hji]
    · next hne =>
        rw [List.getElem?_dropLast, if_pos hj, if_neg (by omega)]
  · rw [if_neg hj]
    split <;> exact List.getElem?_eq_none (by simp; omega)

theorem mem_swapRemove (h : Files m items key) {i : Nat} {removed last a : α}
    (hi : items[i]? = some removed) (hlast : items.getLast? = some last) :
    a ∈ swapRemove items i last ↔ a ∈ items ∧ key a ≠ key removed := by
  have hlen : i < items.length := (List.getElem?_eq_some_iff.mp hi).1
  have hlast' : items[items.length - 1]? = some last := by rwa [← List.getLast?_eq_getElem?]
  -- an item other than the one at `i` has another key
  have hother : ∀ {j : Nat} {b : α}, items[j]? = some b → j ≠ i → key b ≠ key removed := by
    intro j b hj hne hk
    have := (h (key removed) j).mpr ⟨b, hj, hk⟩
    rw [(h (key removed) i).mpr ⟨removed, hi, rfl⟩] at this
    exact hne (Option.some.inj this).symm
  rw [List.mem_iff_getElem?]
  constructor
  · rintro ⟨j, hj⟩
    rw [getElem?_swapRemove hi] at hj
    split at hj
    · next hjl =>
        split at hj
        · next hji =>
            cases hj
            exact ⟨List.mem_of_getElem? hlast', hother hlast' (by omega)⟩
        · next hji => exact ⟨List.mem_of_getElem? hj, hother hj hji⟩
    · cases hj
  · rintro ⟨ha, hk⟩
    obtain ⟨j, hj⟩ := List.mem_iff_getElem?.mp ha
    have hjl : j < items.length := (List.getElem?_eq_some_iff.mp hj).1
    have hji : j ≠ i := by
      rintro rfl
      cases hi.symm.trans hj
      exact hk rfl
    by_cases hend : j = items.length - 1
    · refine ⟨i, ?_⟩
      rw [getElem?_swapRemove hi, if_pos (by omega), if_pos rfl]
      rw [← hend, hj] at hlast'
      exact hlast'.symm
    · refine ⟨j, ?_⟩
      rw [getElem?_swapRemove hi, if_pos (by omega), if_neg hji, hj]

theorem swapRemove_files (h : Files m items key) {i : Nat} {removed last : α}
    (hi : items[i]? = some removed) (hlast : items.getLast? = some last) :
    Files (swapRemoveKey m items key i removed last) (swapRemove items i last) key := by
  have hlen : i < items.length := (List.getElem?_eq_some_iff.mp hi).1
  have hlast' : items[items.length - 1]? = some last := by rwa [← List.getLast?_eq_getElem?]
  have hpos : ∀ {j k : Nat} {a b : α}, items[j]? = some a → items[k]? = some b →
      key a = key b → j = k := by
    intro j k a b hj hk he
    have := (h (key b) j).mpr ⟨a, hj, he⟩
    rw [(h (key b) k).mpr ⟨b, hk, rfl⟩] at this
    exact (Option.some.inj this).symm
  intro x j
  rw [getElem?_swapRemove hi]
  have herase : ∀ {x : Nat}, x ≠ key removed → (m.erase (key removed)).lookup x = m.lookup x :=
    fun hx => AList.lookup_erase_ne hx
  unfold swapRemoveKey
  by_cases hend : i = items.length - 1
  · -- the last item itself is removed
    rw [if_neg (by simpa using hend)]
    by_cases hx : x = key removed
    · subst hx
      rw [AList.lookup_erase]
      refine iff_of_false nofun ?_
      rintro ⟨a, ha, hk⟩
      split at ha
      · rw [if_neg (by omega)] at ha
        have := hpos ha hi hk
        omega
      · cases ha
    · rw [herase hx, h x j]
      constructor
      · rintro ⟨a, ha, hk⟩
        have hjl : j < items.length := (List.getElem?_eq_some_iff.mp ha).1
        have hji : j ≠ i := by
          rintro rfl
          cases hi.symm.trans ha
          exact hx hk.symm
        exact ⟨a, by rw [if_pos (by omega), if_neg hji, ha], hk⟩
      · rintro ⟨a, ha, hk⟩
        split at ha
        · rw [if_neg (by omega)] at ha
          exact ⟨a, ha, hk⟩
        · cases ha
  · rw [if_pos (by simpa using hend)]
    have hne : key last ≠ key removed := fun he => hend (hpos hi hlast' he.symm)
    by_cases hx : x = key last
    · subst hx
      rw [AList.lookup_insert, Option.some.injEq]
      constructor
      · rintro rfl
        exact ⟨last, by rw [if_pos (by omega), if_pos rfl], rfl⟩
      · rintro ⟨a, ha, hk⟩
        split at ha
        · split at ha
          · next hji => exact hji.symm
          · have := hpos ha hlast' hk
            omega
        · cases ha
    · rw [AList.lookup_insert_ne hx]
      by_cases hxr : x = key removed
      · subst hxr
        rw [AList.lookup_erase]
        refine iff_of_false nofun ?_
        rintro ⟨a, ha, hk⟩
        split at ha
        · split at ha
          · cases ha
            exact hx hk.symm
          · next hji => exact hji (hpos ha hi hk)
        · cases ha
      · rw [herase hxr, h x j]
        constructor
        · rintro ⟨a, ha, hk⟩
          have hjl : j < items.length := (List.getElem?_eq_some_iff.mp ha).1
          have hji : j ≠ i := by
            rintro rfl
            cases hi.symm.trans ha
            exact hxr hk.symm
          have hje : j ≠ items.length - 1 := by
            rintro rfl
            cases hlast'.symm.trans ha
            exact hx hk.symm
          exact ⟨a, by rw [if_pos (by omega), if_neg hji, ha], hk⟩
        · rintro ⟨a, ha, hk⟩
          split at ha
          · split at ha
            · cases ha
              exact absurd hk.symm hx
            · exact ⟨a, ha, hk⟩
          · cases ha

end Files

end OpenViking.Lib
