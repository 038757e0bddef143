/-
# `OpenViking.Index.Traces` — where a record leaves traces

A record is in the bitmaps of its keys and has a number in a ranged map: then it
`Occupies` the group of the field.  Writing at an offset changes who occupies a group
at that offset only, and a deletion leaves no trace if the fields it is given cover
those the record is filed under (`Covers`).  This holds for path fields as for others.
-/
import OpenViking.Index.RowUpdate
import OpenViking.Index.RangedRuns

namespace OpenViking.Index

open OpenViking.Lib

variable {D : Type} [LinearOrder D]

namespace FieldBitmapGroup

/-- The record is filed under a key of the field, or has a number. -/
def Occupies (g : FieldBitmapGroup D) (o : Nat) : Prop :=
  (∃ key, o ∈ g.bits key) ∨ ∃ m, g.ranged = some m ∧ (m.valueAt o).isSome = true

/-- The ranged map holds a finite map. -/
def RangedOk (g : FieldBitmapGroup D) : Prop := ∀ m, g.ranged = some m → ∃ cur, m.Agrees cur

/-- `g` was written at offset `o` and became `g'`. -/
structure Touches (o : Nat) (g g' : FieldBitmapGroup D) : Prop where
  ranged : g.RangedOk → g'.RangedOk
  occupies : ∀ o', g'.Occupies o' → g.Occupies o' ∨ o' = o ∧ o < g'.elementSize
  size : g.elementSize ≤ g'.elementSize
  bound : g'.elementSize ≤ max g.elementSize (o + 1)

variable {g g' g'' : FieldBitmapGroup D} {o : Nat}

theorem Touches.refl : Touches o g g :=
  ⟨fun h => h, fun _ h => .inl h, le_rfl, le_max_left _ _⟩

theorem Touches.trans (h : Touches o g g') (h' : Touches o g' g'') : Touches o g g'' := by
  refine ⟨fun hg => h'.ranged (h.ranged hg), ?_, h.size.trans h'.size, ?_⟩
  · intro o' ho'
    rcases h'.occupies o' ho' with ho' | hnew
    · rcases h.occupies o' ho' with ho' | ⟨heq, hlt⟩
      · exact .inl ho'
      · exact .inr ⟨heq, hlt.trans_le h'.size⟩
    · exact .inr hnew
  · exact h'.bound.trans (max_le h.bound (le_max_right _ _))

/-- `g` lost some traces and became `g'`. -/
structure Shrinks (g g' : FieldBitmapGroup D) : Prop where
  ranged : g.RangedOk → g'.RangedOk
  occupies : ∀ o', g'.Occupies o' → g.Occupies o'
  size : g'.elementSize = g.elementSize

theorem Shrinks.refl : Shrinks g g := ⟨fun h => h, fun _ h => h, rfl⟩

theorem Shrinks.trans (h : Shrinks g g') (h' : Shrinks g' g'') : Shrinks g g'' :=
  ⟨fun hg => h'.ranged (h.ranged hg), fun o ho => h.occupies o (h'.occupies o ho),
    h'.size.trans h.size⟩

theorem Shrinks.touches (h : Shrinks g g') (o : Nat) : Touches o g g' :=
  ⟨h.ranged, fun o' ho' => .inl (h.occupies o' ho'), h.size.ge, h.size.le.trans (le_max_left _ _)⟩

/-! ## Strings -/

/-- The loop over the keys of an added string -/
theorem mem_bits_addKeys (keys : List Str) (g : FieldBitmapGroup D) (o : Nat) :
    (keys.foldl (fun g key => g.addKey o key) g).ranged = g.ranged ∧
      (keys.foldl (fun g key => g.addKey o key) g).elementSize = g.elementSize ∧
      ∀ key o', o' ∈ (keys.foldl (fun g key => g.addKey o key) g).bits key →
        o' ∈ g.bits key ∨ o' = o := by
  induction keys generalizing g with
  | nil => exact ⟨rfl, rfl, fun _ _ h => .inl h⟩
  | cons key keys ih =>
      obtain ⟨hranged, hsize, hbits⟩ := ih (g.addKey o key)
      refine ⟨hranged, hsize, ?_⟩
      intro key' o' ho'
      rcases hbits key' o' ho' with ho' | ho'
      · rw [bits_addKey] at ho'
        split at ho'
        · exact (Finset.mem_insert.mp ho').symm
        · exact .inl ho'
      · exact .inr ho'

/-- The loop over the keys of a deleted string -/
theorem mem_bits_deleteKeys (keys : List Str) (g : FieldBitmapGroup D) (o : Nat) :
    (keys.foldl (fun g key => g.deleteKey o key) g).ranged = g.ranged ∧
      (keys.foldl (fun g key => g.deleteKey o key) g).elementSize = g.elementSize ∧
      ∀ key o', o' ∈ (keys.foldl (fun g key => g.deleteKey o key) g).bits key →
        o' ∈ g.bits key ∧ (o' = o → key ∉ keys.map g.normKey) := by
  induction keys generalizing g with
  | nil => exact ⟨rfl, rfl, fun _ _ h => ⟨h, fun _ hno => by cases hno⟩⟩
  | cons key keys ih =>
      obtain ⟨hranged, hsize, hbits⟩ := ih (g.deleteKey o key)
      refine ⟨hranged, hsize, ?_⟩
      intro key' o' ho'
      obtain ⟨hmem, hnot⟩ := hbits key' o' ho'
      rw [bits_deleteKey] at hmem
      have hsame : (g.deleteKey o key).normKey = g.normKey := rfl
      rw [hsame] at hnot
      split at hmem
      · next hkey =>
          obtain ⟨hne, hmem⟩ := Finset.mem_erase.mp hmem
          exact ⟨hmem, fun he => absurd he hne⟩
      · next hkey =>
          refine ⟨hmem, fun he hin => ?_⟩
          rcases List.mem_cons.mp hin with hin | hin
          · exact hkey hin
          · exact hnot he hin

theorem touches_addStr (g : FieldBitmapGroup D) (s : Str) (o : Nat) :
    Touches o g (g.addStr s o) := by
  obtain ⟨hranged, hsize, hbits⟩ := mem_bits_addKeys (keysOf s) g o
  have hsize' : (g.addStr s o).elementSize = max (o + 1) g.elementSize :=
    congrArg (max (o + 1)) hsize
  refine ⟨?_, ?_, ?_, ?_⟩
  · intro hg m hm
    exact hg m (hranged.symm.trans hm)
  · rintro o' (⟨key, ho'⟩ | ⟨m, hm, ho'⟩)
    · rcases hbits key o' ho' with ho' | ho'
      · exact .inl (.inl ⟨key, ho'⟩)
      · refine .inr ⟨ho', ?_⟩
        rw [hsize']
        exact (Nat.lt_succ_self o).trans_le (le_max_left _ _)
    · exact .inl (.inr ⟨m, hranged.symm.trans hm, ho'⟩)
  · rw [hsize']
    exact le_max_right _ _
  · exact (hsize'.trans (max_comm _ _)).le

theorem shrinks_deleteStr (g : FieldBitmapGroup D) (s : Str) (o : Nat) :
    Shrinks g (g.deleteStr s o) := by
  unfold deleteStr
  split
  · exact .refl
  · obtain ⟨hranged, hsize, hbits⟩ := mem_bits_deleteKeys (keysOf s) g o
    refine ⟨?_, ?_, hsize⟩
    · intro hg m hm
      exact hg m (hranged.symm.trans hm)
    · rintro o' (⟨key, ho'⟩ | ⟨m, hm, ho'⟩)
      · exact .inl ⟨key, (hbits key o' ho').1⟩
      · exact .inr ⟨m, hranged.symm.trans hm, ho'⟩

/-! ## Numbers -/

/-- What the ranged map of a group has -/
theorem occupies_of_valueAt {o' : Nat}
    (h : ((g.ranged.getD RangedMap.empty).valueAt o').isSome = true) : g.Occupies o' := by
  cases hm : g.ranged with
  | none =>
      rw [hm] at h
      cases h
  | some m =>
      rw [hm] at h
      exact .inr ⟨m, hm, h⟩

theorem agrees_of_rangedOk (h : g.RangedOk) :
    ∃ cur, (g.ranged.getD RangedMap.empty).Agrees cur := by
  cases hm : g.ranged with
  | none => exact ⟨_, RangedMap.agrees_empty⟩
  | some m => exact h m hm

/-- An addition is refused, or the number is entered. -/
theorem addOffsetAndScore_cases (m : RangedMap D) (x : D) (o : Nat) :
    m.addOffsetAndScore o x = (false, m) ∨
      (m.addOffsetAndScore o x).1 = true ∧
        ∀ o', (m.addOffsetAndScore o x).2.valueAt o' = if o' = o then some x else m.valueAt o' := by
  cases hfree : m.valueAt o with
  | some v =>
      refine .inl ?_
      unfold RangedMap.addOffsetAndScore
      rw [hfree]
      rfl
  | none =>
      refine .inr ⟨?_, fun o' => RangedMap.valueAt_add hfree x o'⟩
      unfold RangedMap.addOffsetAndScore
      rw [hfree, if_neg (by exact Bool.false_ne_true)]
      split <;> rfl

theorem touches_addDouble (g : FieldBitmapGroup D) (x : D) (o : Nat) :
    Touches o g (g.addDouble x o) := by
  have heq : g.addDouble x o =
      { g with
        ranged := some ((g.ranged.getD RangedMap.empty).addOffsetAndScore o x).2
        elementSize := if ((g.ranged.getD RangedMap.empty).addOffsetAndScore o x).1 then
          max (o + 1) g.elementSize else g.elementSize } := rfl
  rw [heq]
  refine ⟨?_, ?_, ?_, ?_⟩
  · intro hg m hm
    obtain ⟨cur, hcur⟩ := agrees_of_rangedOk hg
    rw [← Option.some.inj hm]
    exact ⟨_, hcur.add o x⟩
  · rintro o' (⟨key, ho'⟩ | ⟨m, hm, ho'⟩)
    · exact .inl (.inl ⟨key, ho'⟩)
    · rw [← Option.some.inj hm] at ho'
      rcases addOffsetAndScore_cases (g.ranged.getD RangedMap.empty) x o with hno | ⟨hok, hvalue⟩
      · rw [hno] at ho'
        exact .inl (occupies_of_valueAt ho')
      · rw [hvalue] at ho'
        split at ho'
        · next he =>
            refine .inr ⟨he, ?_⟩
            rw [hok]
            exact (Nat.lt_succ_self o).trans_le (le_max_left _ _)
        · exact .inl (occupies_of_valueAt ho')
  · dsimp only
    split
    · exact le_max_right _ _
    · exact le_rfl
  · dsimp only
    split
    · exact (max_comm _ _).le
    · exact le_max_left _ _

/-- A deleted number is gone, the others stay. -/
theorem valueAt_deleteOffset (m : RangedMap D) (o o' : Nat) :
    (m.deleteOffset o).2.valueAt o' = if o' = o then none else m.valueAt o' := by
  have hset : ∀ m' : RangedMap D, m'.offsetToValue = m.setValue o none →
      m'.valueAt o' = if o' = o then none else m.valueAt o' := by
    intro m' hm'
    rw [RangedMap.valueAt, hm', RangedMap.valueAt_of_setValue]
  unfold RangedMap.deleteOffset
  split
  · next hnone =>
      split
      · next he => rw [he, hnone]
      · rfl
  · split
    · exact hset _ rfl
    · exact hset _ rfl

theorem shrinks_deleteDouble (g : FieldBitmapGroup D) (o : Nat) : Shrinks g (g.deleteDouble o) := by
  unfold deleteDouble
  split
  · exact .refl
  · refine ⟨?_, ?_, rfl⟩
    · intro hg m hm
      obtain ⟨cur, hcur⟩ := agrees_of_rangedOk hg
      rw [← Option.some.inj hm]
      exact ⟨_, hcur.delete o⟩
    · rintro o' (⟨key, ho'⟩ | ⟨m, hm, ho'⟩)
      · exact .inl ⟨key, ho'⟩
      · rw [← Option.some.inj hm, valueAt_deleteOffset] at ho'
        split at ho'
        · cases ho'
        · exact occupies_of_valueAt ho'

/-- A deletion under the keys and the number of the record leaves nothing of it. -/
theorem not_occupies_deleted (hlt : o < g.elementSize) {str : Option Str} {dbl : Bool}
    (hkeys : ∀ key, o ∈ g.bits key → ∃ s, str = some s ∧ key ∈ (keysOf s).map g.normKey)
    (hnumber : (∃ m, g.ranged = some m ∧ (m.valueAt o).isSome = true) → dbl = true)
    {g₁ g₂ : FieldBitmapGroup D} (hg₁ : g₁ = str.elim g fun s => g.deleteStr s o)
    (hg₂ : g₂ = if dbl then g₁.deleteDouble o else g₁) : ¬ g₂.Occupies o := by
  -- after the strings: no key, the same number
  have hfirst : (∀ key, o ∉ g₁.bits key) ∧ g₁.ranged = g.ranged ∧
      g₁.elementSize = g.elementSize := by
    cases str with
    | none =>
        rw [hg₁]
        refine ⟨fun key hkey => ?_, rfl, rfl⟩
        obtain ⟨s, hs, -⟩ := hkeys key hkey
        cases hs
    | some s =>
        have heq : g₁ = (keysOf s).foldl (fun g key => g.deleteKey o key) g := by
          rw [hg₁]
          exact if_neg (Nat.not_le.mpr hlt)
        obtain ⟨hranged, hsize, hbits⟩ := mem_bits_deleteKeys (keysOf s) g o
        rw [← heq] at hranged hsize hbits
        refine ⟨fun key hkey => ?_, hranged, hsize⟩
        obtain ⟨hmem, hnot⟩ := hbits key o hkey
        obtain ⟨s', hs', hin⟩ := hkeys key hmem
        cases hs'
        exact hnot rfl hin
  obtain ⟨hbits, hranged, hsize⟩ := hfirst
  cases dbl with
  | false =>
      have heq : g₂ = g₁ := hg₂
      rw [heq]
      rintro (⟨key, hkey⟩ | ⟨m, hm, ho⟩)
      · exact hbits key hkey
      · cases hnumber ⟨m, hranged.symm.trans hm, ho⟩
  | true =>
      have hlt' : ¬ g₁.elementSize ≤ o := by
        rw [hsize]
        exact Nat.not_le.mpr hlt
      have heq : g₂ =
          { g₁ with ranged := some ((g₁.ranged.getD RangedMap.empty).deleteOffset o).2 } :=
        hg₂.trans (if_neg hlt')
      rw [heq]
      rintro (⟨key, hkey⟩ | ⟨m, hm, ho⟩)
      · exact hbits key hkey
      · cases hm
        rw [valueAt_deleteOffset, if_pos rfl] at ho
        cases ho

end FieldBitmapGroup

/-! ## All fields -/

namespace FieldBitmapGroupSet

open FieldBitmapGroup

variable {G : FieldBitmapGroupSet D} {o : Nat} {f : Str}

/-- The fields given to a deletion cover the keys and numbers of the record. -/
def Covers (G : FieldBitmapGroupSet D) (o : Nat) (old : FieldsDict D) : Prop :=
  ∀ f g, G.findFieldGroup f = some g →
    (∀ key, o ∈ g.bits key →
      ∃ s, old.strs.lookup f = some s ∧ key ∈ (keysOf s).map g.normKey) ∧
    ((∃ m, g.ranged = some m ∧ (m.valueAt o).isSome = true) → (old.dbls.lookup f).isSome = true)

/-- Ranged maps hold finite maps, and who occupies a group is within the sizes. -/
structure Kept (G : FieldBitmapGroupSet D) : Prop where
  ranged : ∀ f g, G.findFieldGroup f = some g → g.RangedOk
  within : ∀ f g o, G.findFieldGroup f = some g → g.Occupies o → o < g.elementSize
  size : ∀ f g, G.findFieldGroup f = some g → g.elementSize ≤ G.elementSize

/-- Every group after `delete_row_data`, and the one it was -/
theorem shrinks_deleteRowData {old : FieldsDict D} {g' : FieldBitmapGroup D}
    (hg' : (G.deleteRowData o old).findFieldGroup f = some g') :
    ∃ g, G.findFieldGroup f = some g ∧ Shrinks g g' := by
  by_cases h : o < G.elementSize
  · rw [find_deleteRowData h] at hg'
    obtain ⟨g, hg, rfl⟩ := Option.map_eq_some_iff.mp hg'
    have hstr : Shrinks g ((old.strs.lookup f).elim g fun s => g.deleteStr s o) := by
      cases old.strs.lookup f with
      | none => exact .refl
      | some s => exact shrinks_deleteStr g s o
    refine ⟨g, hg, ?_⟩
    split
    · exact hstr.trans (shrinks_deleteDouble _ o)
    · exact hstr
  · rw [deleteRowData_of_le (Nat.le_of_not_lt h)] at hg'
    exact ⟨g', hg', .refl⟩

theorem Kept.deleteRowData (h : G.Kept) (o : Nat) (old : FieldsDict D) :
    (G.deleteRowData o old).Kept := by
  refine ⟨?_, ?_, ?_⟩
  · intro f g' hg'
    obtain ⟨g, hg, hshrinks⟩ := shrinks_deleteRowData hg'
    exact hshrinks.ranged (h.ranged f g hg)
  · intro f g' o' hg' ho'
    obtain ⟨g, hg, hshrinks⟩ := shrinks_deleteRowData hg'
    rw [hshrinks.size]
    exact h.within f g o' hg (hshrinks.occupies o' ho')
  · intro f g' hg'
    obtain ⟨g, hg, hshrinks⟩ := shrinks_deleteRowData hg'
    rw [hshrinks.size, elementSize_deleteRowData]
    exact h.size f g hg

/-- A deletion that is covered leaves no trace. -/
theorem not_occupies_deleteRowData (hkept : G.Kept) {old : FieldsDict D} (hcovers : G.Covers o old)
    {g' : FieldBitmapGroup D} (hg' : (G.deleteRowData o old).findFieldGroup f = some g') :
    ¬ g'.Occupies o := by
  intro ho
  obtain ⟨g, hg, hshrinks⟩ := shrinks_deleteRowData hg'
  have hlt : o < g.elementSize := hkept.within f g o hg (hshrinks.occupies o ho)
  rw [find_deleteRowData (hlt.trans_le (hkept.size f g hg)), hg] at hg'
  obtain ⟨hkeys, hnumber⟩ := hcovers f g hg
  rw [← Option.some.inj hg'] at ho
  exact not_occupies_deleted hlt hkeys hnumber rfl rfl ho

/-! ### Adding -/

/-- Every group after `add_row_data`, and the one it was -/
theorem touches_addRowData {fields old : FieldsDict D} {g' : FieldBitmapGroup D}
    (hg' : (G.addRowData o fields old).findFieldGroup f = some g') :
    ∃ g, G.findFieldGroup f = some g ∧ Touches o g g' ∧
      (g'.elementSize = g.elementSize ∨
        (G.addRowData o fields old).elementSize = max G.elementSize (o + 1)) := by
  rw [find_addRowData] at hg'
  obtain ⟨g₁, hg₁, rfl⟩ := Option.map_eq_some_iff.mp hg'
  obtain ⟨g, hg, hshrinks⟩ := shrinks_deleteRowData hg₁
  have hgrown : (fields.strs.lookup f).isSome = true ∨ (fields.dbls.lookup f).isSome = true →
      (G.addRowData o fields old).elementSize = max G.elementSize (o + 1) := by
    intro hsome
    rw [elementSize_addRowData, if_neg]
    rintro ⟨hs, hd⟩
    rw [lookup_of_isEmpty hs f, lookup_of_isEmpty hd f] at hsome
    exact hsome.elim Bool.false_ne_true Bool.false_ne_true
  refine ⟨g, hg, (hshrinks.touches o).trans ?_, ?_⟩
  · cases fields.strs.lookup f with
    | none =>
        cases fields.dbls.lookup f with
        | none => exact .refl
        | some x => exact touches_addDouble g₁ x o
    | some s =>
        cases fields.dbls.lookup f with
        | none => exact touches_addStr g₁ s o
        | some x => exact (touches_addStr g₁ s o).trans (touches_addDouble _ x o)
  · cases hs : fields.strs.lookup f with
    | some s => exact .inr (hgrown (.inl (by rw [hs]; rfl)))
    | none =>
        cases hd : fields.dbls.lookup f with
        | some x => exact .inr (hgrown (.inr (by rw [hd]; rfl)))
        | none => exact .inl hshrinks.size

theorem Kept.addRowData (h : G.Kept) (o : Nat) (fields old : FieldsDict D) :
    (G.addRowData o fields old).Kept := by
  refine ⟨?_, ?_, ?_⟩
  · intro f g' hg'
    obtain ⟨g, hg, htouches, -⟩ := touches_addRowData hg'
    exact htouches.ranged (h.ranged f g hg)
  · intro f g' o' hg' ho'
    obtain ⟨g, hg, htouches, -⟩ := touches_addRowData hg'
    rcases htouches.occupies o' ho' with ho' | ⟨rfl, hlt⟩
    · exact (h.within f g o' hg ho').trans_le htouches.size
    · exact hlt
  · intro f g' hg'
    obtain ⟨g, hg, htouches, hsize⟩ := touches_addRowData hg'
    have hle := h.size f g hg
    have hmono : G.elementSize ≤ (G.addRowData o fields old).elementSize := by
      rw [elementSize_addRowData]
      split
      · exact le_rfl
      · exact le_max_left _ _
    rcases hsize with hsize | hsize
    · rw [hsize]
      exact hle.trans hmono
    · rw [hsize]
      exact htouches.bound.trans (max_le_max_right _ hle)

end FieldBitmapGroupSet

end OpenViking.Index
